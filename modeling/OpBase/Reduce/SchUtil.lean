import OpBase.Lib.BinaryCounter

/-!
# The numbers of the bisection

`op_common/op_kernel/math_util.h` and `reduce_sch_aux_util.h`: the rounding of the device code,
and the functions that the blocks of a reduction are counted with. A word has 64 bits, but the
one that is shifted to make a power of two has 32.

> `findNearestPower2_spec`: up to 2³¹ blocks are cut at the power of two below, so that there is
> something behind the cut, and not more than in front of it.
>
> `findNearestPower2_of_gt`: more are cut at a number behind all of them, or nowhere.
>
> `getCacheID_eq`: the slot of a block is the number of ones its index ends with.
-/

namespace OpBase.Reduce

open OpBase.Lib

/-- `CeilDiv` of the device, for 64 bits -/
def ceilDiv (a b : Nat) : Nat := (a + b - 1) % 2 ^ 64 / b

/-- `CeilAlign` of the device, for 64 bits -/
def ceilAlign (a b : Nat) : Nat := (a + b - 1) % 2 ^ 64 / b * b

def scalarCountLeadingZero (num : Nat) : Nat := 64 - Nat.size num

/-- `ScalarGetCountOfValue<1>` -/
def scalarGetCountOfOne (num : Nat) : Nat := ((List.range 64).filter num.testBit).length

/-- `CONST1 << pow`: `CONST1` is an `int32_t`. Its sign goes into the upper half of the word that
is returned, and to shift it by more than its length is undefined. -/
def shiftConst1 (pow : Nat) : Option Nat :=
  if pow < 32 then some ((1#32 <<< pow).signExtend 64).toNat else none

def findNearestPower2 (value : Nat) : Option Nat :=
  if value = 0 then some 0
  else if value ≤ 2 then some 1
  else if value ≤ 4 then some 2
  else
    let num := value - 1
    let pow := 63 - scalarCountLeadingZero num
    shiftConst1 pow

/-- The loop of `CalLog2`. -/
def calLog2Loop (value res : Nat) : Nat :=
  if 1 < value then calLog2Loop (value >>> 1) (res + 1) else res
termination_by value
decreasing_by
  rw [Nat.shiftRight_eq_div_pow]
  omega

def calLog2 (value : Nat) : Nat := calLog2Loop value 0

/-- `GetCacheID` -/
def getCacheID (idx : Nat) : Nat := scalarGetCountOfOne (idx ^^^ ((idx + 1) % 2 ^ 64)) - 1

/-! ## The cut -/

theorem shiftConst1_of_lt {pow : Nat} (h : pow < 31) : shiftConst1 pow = some (2 ^ pow) := by
  have hall : ∀ pow < 31, shiftConst1 pow = some (2 ^ pow) := by decide
  exact hall pow h

variable {value : Nat}

/-- From five blocks on the power is that of the length. -/
theorem findNearestPower2_eq (hgt : 4 < value) (hlt : value < 2 ^ 64) :
    findNearestPower2 value = shiftConst1 ((value - 1).size - 1) := by
  have hsize : (value - 1).size ≤ 64 := Nat.size_le.mpr (by omega)
  have hpow : 63 - scalarCountLeadingZero (value - 1) = (value - 1).size - 1 := by
    unfold scalarCountLeadingZero
    omega
  unfold findNearestPower2
  rw [if_neg (by omega), if_neg (by omega), if_neg (by omega)]
  exact congrArg shiftConst1 hpow

/-- Up to `2 ^ 31` the result is a power of two between half the value and the value. -/
theorem findNearestPower2_spec (hpos : 1 ≤ value) (hle : value ≤ 2 ^ 31) :
    ∃ m, findNearestPower2 value = some (2 ^ m) ∧ m < 31 ∧ 2 ^ m ≤ value ∧
      value ≤ 2 * 2 ^ m := by
  rcases Nat.lt_or_ge 4 value with hgt | hsmall
  · have hsize : (value - 1).size ≤ 31 := Nat.size_le.mpr (by omega)
    have hsize' : 0 < (value - 1).size := Nat.size_pos.mpr (by omega)
    have hlow : 2 ^ ((value - 1).size - 1) ≤ value - 1 :=
      Nat.lt_size.mp (Nat.sub_lt hsize' Nat.one_pos)
    have hhigh := Nat.lt_size_self (value - 1)
    have hdouble : 2 ^ (value - 1).size = 2 * 2 ^ ((value - 1).size - 1) := by
      rw [← Nat.pow_succ']
      exact congrArg (2 ^ ·) (by omega)
    refine ⟨(value - 1).size - 1, ?_, by omega, by omega, by omega⟩
    rw [findNearestPower2_eq hgt (by omega), shiftConst1_of_lt (by omega)]
  · unfold findNearestPower2
    rw [if_neg (by omega)]
    split
    next => exact ⟨0, rfl, by decide, by omega, by omega⟩
    next => exact ⟨1, rfl, by decide, by omega, by omega⟩

/-- The sign bit is the power, or the shift is undefined. -/
theorem findNearestPower2_of_gt (hgt : 2 ^ 31 < value) (hlt : value < 2 ^ 64) :
    findNearestPower2 value = none ∨
      findNearestPower2 value = some (2 ^ 64 - 2 ^ 31) ∧ value ≤ 2 ^ 32 := by
  have hsize : 31 < (value - 1).size := Nat.lt_size.mpr (by omega)
  rw [findNearestPower2_eq (by omega) hlt]
  rcases Nat.eq_or_lt_of_le (show 32 ≤ (value - 1).size from hsize) with heq | hmore
  · have hle := heq ▸ Nat.lt_size_self (value - 1)
    rw [← heq]
    exact Or.inr ⟨by decide, by omega⟩
  · exact Or.inl (if_neg (by omega))

theorem calLog2Loop_two_pow (m : Nat) : ∀ res, calLog2Loop (2 ^ m) res = res + m := by
  induction m with
  | zero =>
    intro res
    rw [calLog2Loop, if_neg (by decide)]
    rfl
  | succ m ih =>
    intro res
    have hpos := Nat.two_pow_pos m
    rw [calLog2Loop, if_pos (by rw [Nat.pow_succ]; omega), Nat.shiftRight_eq_div_pow, Nat.pow_succ,
      Nat.mul_div_cancel _ (by decide), ih]
    omega

theorem calLog2_two_pow (m : Nat) : calLog2 (2 ^ m) = m := by
  unfold calLog2
  rw [calLog2Loop_two_pow, Nat.zero_add]

/-! ## The slot -/

theorem testBit_xor_succ : ∀ (n k : Nat), (n ^^^ (n + 1)).testBit k = decide (k ≤ trailingOnes n)
  | n, 0 => by
    rw [Nat.testBit_xor, Nat.testBit_zero, Nat.testBit_zero]
    rcases Nat.mod_two_eq_zero_or_one n with h | h
    · rw [h, show (n + 1) % 2 = 1 by omega]
      rfl
    · rw [h, show (n + 1) % 2 = 0 by omega]
      rfl
  | n, k + 1 => by
    rw [Nat.testBit_xor, Nat.testBit_succ, Nat.testBit_succ]
    rcases Nat.mod_two_eq_zero_or_one n with h | h
    · obtain ⟨m, rfl⟩ : ∃ m, n = 2 * m := ⟨n / 2, by omega⟩
      rw [show (2 * m + 1) / 2 = m by omega, show 2 * m / 2 = m by omega, Bool.xor_self,
        trailingOnes_even]
      rfl
    · obtain ⟨m, rfl⟩ : ∃ m, n = 2 * m + 1 := ⟨n / 2, by omega⟩
      rw [show (2 * m + 1 + 1) / 2 = m + 1 by omega, show (2 * m + 1) / 2 = m by omega,
        ← Nat.testBit_xor, testBit_xor_succ m k, trailingOnes_odd]
      exact decide_eq_decide.mpr Nat.succ_le_succ_iff.symm

/-- The number of trailing ones, where the shift does not wrap. -/
theorem getCacheID_eq {idx : Nat} (h : idx < 2 ^ 63) : getCacheID idx = trailingOnes idx := by
  have hle : trailingOnes idx ≤ 63 := trailingOnes_le_of_lt h
  have hfilter : (List.range 64).filter (idx ^^^ (idx + 1)).testBit =
      List.range (trailingOnes idx + 1) := by
    rw [show (64 : Nat) = trailingOnes idx + 1 + (63 - trailingOnes idx) by omega, List.range_add,
      List.filter_append]
    rw [List.filter_eq_self.mpr, List.filter_eq_nil_iff.mpr, List.append_nil]
    · intro k hk
      obtain ⟨j, -, rfl⟩ := List.mem_map.mp hk
      rw [testBit_xor_succ, decide_eq_true_iff]
      omega
    · intro k hk
      rw [testBit_xor_succ, decide_eq_true_iff]
      exact Nat.lt_succ_iff.mp (List.mem_range.mp hk)
  unfold getCacheID scalarGetCountOfOne
  rw [Nat.mod_eq_of_lt (by omega), hfilter, List.length_range]
  rfl

end OpBase.Reduce
