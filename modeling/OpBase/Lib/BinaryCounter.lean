import Mathlib

/-!
# Products in the slots of a binary counter

Values come one by one, and each is multiplied into the slots like a carry: it takes in the
slots below the first bit that is not set and goes into the slot of that bit. So the slot of a
set bit has the product of as many values as the bit is worth, and a power of two of values
ends in one slot. What was in the slots before is never read.

Two steps on the values are one step on the products of two, a slot higher.

> `accumulate_two_pow`: after `2 ^ m` values slot `m` has the product of all.
-/

namespace OpBase.Lib

open Finset

/-- The bits that are set below the first one that is not. -/
def trailingOnes (n : Nat) : Nat := if n % 2 = 0 then 0 else trailingOnes (n / 2) + 1
termination_by n
decreasing_by omega

@[simp] theorem trailingOnes_even (n : Nat) : trailingOnes (2 * n) = 0 := by
  rw [trailingOnes, if_pos (Nat.mul_mod_right 2 n)]

@[simp] theorem trailingOnes_odd (n : Nat) : trailingOnes (2 * n + 1) = trailingOnes n + 1 := by
  rw [trailingOnes, if_neg (by omega), show (2 * n + 1) / 2 = n by omega]

theorem trailingOnes_zero : trailingOnes 0 = 0 := trailingOnes_even 0

/-- A number of `m` bits has at most `m` ones at its end. -/
theorem trailingOnes_le_of_lt {m : Nat} : ∀ {n : Nat}, n < 2 ^ m → trailingOnes n ≤ m := by
  induction m with
  | zero =>
    intro n hn
    rw [show n = 2 * 0 by omega, trailingOnes_even]
  | succ m ih =>
    intro n hn
    rcases Nat.mod_two_eq_zero_or_one n with h | h
    · rw [show n = 2 * (n / 2) by omega, trailingOnes_even]
      exact Nat.zero_le _
    · rw [show n = 2 * (n / 2) + 1 by omega, trailingOnes_odd]
      exact Nat.succ_le_succ (ih (by omega))

section Accumulate

variable {M : Type*} [CommMonoid M]

/-- The `n`-th value is multiplied into the slots. -/
def carry (slots : Nat → M) (n : Nat) (x : M) : Nat → M :=
  Function.update slots (trailingOnes n) (x * ∏ j ∈ range (trailingOnes n), slots j)

/-- The slots behind the first `n` values. -/
def accumulate (v : Nat → M) (init : Nat → M) : Nat → Nat → M
  | 0 => init
  | n + 1 => carry (accumulate v init n) n (v n)

variable {v init slots : Nat → M}

theorem carry_self (slots : Nat → M) (n : Nat) (x : M) :
    carry slots n x (trailingOnes n) = x * ∏ j ∈ range (trailingOnes n), slots j :=
  Function.update_self _ _ _

theorem carry_of_ne {n k : Nat} (h : k ≠ trailingOnes n) (x : M) : carry slots n x k = slots k :=
  Function.update_of_ne h _ _

theorem accumulate_succ (n : Nat) :
    accumulate v init (n + 1) = carry (accumulate v init n) n (v n) := rfl

theorem accumulate_double (n k : Nat) :
    accumulate v init (2 * n) (k + 1) =
      accumulate (fun i => v (2 * i) * v (2 * i + 1)) (fun j => init (j + 1)) n k := by
  induction n generalizing k with
  | zero => rfl
  | succ n ih =>
    have hlow : ∀ j, accumulate v init (2 * n + 1) (j + 1) = accumulate v init (2 * n) (j + 1) :=
      fun j => carry_of_ne (by rw [trailingOnes_even]; exact Nat.succ_ne_zero j) _
    have hzero : accumulate v init (2 * n + 1) 0 = v (2 * n) := by
      have h := carry_self (accumulate v init (2 * n)) (2 * n) (v (2 * n))
      rwa [trailingOnes_even, range_zero, prod_empty, mul_one] at h
    rw [Nat.mul_succ, accumulate_succ (2 * n + 1), accumulate_succ n]
    by_cases hk : k = trailingOnes n
    · rw [hk, ← trailingOnes_odd, carry_self, trailingOnes_odd, carry_self, prod_range_succ', hzero]
      simp only [hlow, ih]
      rw [mul_comm (∏ j ∈ range (trailingOnes n), _) (v (2 * n)), ← mul_assoc,
        mul_comm (v (2 * n + 1))]
    · have hk' : k + 1 ≠ trailingOnes (2 * n + 1) := by
        rw [trailingOnes_odd]
        exact fun h => hk (Nat.succ.inj h)
      rw [carry_of_ne hk, carry_of_ne hk', hlow, ih]

theorem prod_range_double (v : Nat → M) : ∀ n,
    ∏ i ∈ range (2 * n), v i = ∏ i ∈ range n, v (2 * i) * v (2 * i + 1)
  | 0 => rfl
  | n + 1 => by
    rw [Nat.mul_succ, prod_range_succ, prod_range_succ, prod_range_succ, prod_range_double v n,
      mul_assoc]

/-- After `2 ^ m` values, one partial product is all of them. -/
theorem accumulate_two_pow (m : Nat) : accumulate v init (2 ^ m) m = ∏ i ∈ range (2 ^ m), v i := by
  induction m generalizing v init with
  | zero =>
    have h := carry_self init 0 (v 0)
    rw [trailingOnes_zero, range_zero, prod_empty, mul_one] at h
    rw [pow_zero, prod_range_one]
    exact h
  | succ m ih => rw [Nat.pow_succ, Nat.mul_comm, accumulate_double, ih, prod_range_double]

end Accumulate

end OpBase.Lib
