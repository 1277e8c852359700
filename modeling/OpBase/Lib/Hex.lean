import OpBase.Lib.Bytes

/-!
# Hexadecimal numerals and words

The digits of a lowercase hexadecimal numeral, and the 64-bit words of its value. A word is
filled digit by digit, either from the left, the word moving up by four bits, or from the
right, each digit moved to its place.

> `wordsOf_succ`: the lowest word of a number, then those of what is left.
>
> `ofNat_or_shiftLeft`: a digit joins a word.
-/

namespace OpBase.Lib

/-- The value of a digit. -/
def hexDigit (c : Byte) : Option Byte :=
  if 48 ≤ c ∧ c ≤ 57 then some (c - 48)
  else if 97 ≤ c ∧ c ≤ 102 then some (c - 97 + 10)
  else none

/-- The digit with a value. -/
def hexChar (d : Fin 16) : Byte :=
  if d.val < 10 then UInt8.ofNat (48 + d.val) else UInt8.ofNat (87 + d.val)

theorem hexDigit_hexChar : ∀ d : Fin 16, hexDigit (hexChar d) = some (UInt8.ofNat d.val) := by
  decide

theorem hexDigit_lt {c d : Byte} (h : hexDigit c = some d) : d.toNat < 16 := by
  unfold hexDigit at h
  split at h
  next hc =>
    obtain ⟨h₁, h₂⟩ := hc
    cases h
    rw [UInt8.le_iff_toNat_le] at h₁ h₂
    rw [UInt8.toNat_sub_of_le _ _ (UInt8.le_iff_toNat_le.mpr h₁)]
    have h48 : (48 : UInt8).toNat = 48 := rfl
    have h57 : (57 : UInt8).toNat = 57 := rfl
    omega
  next =>
    split at h
    next hc =>
      obtain ⟨h₁, h₂⟩ := hc
      cases h
      rw [UInt8.le_iff_toNat_le] at h₁ h₂
      rw [UInt8.toNat_add, UInt8.toNat_sub_of_le _ _ (UInt8.le_iff_toNat_le.mpr h₁)]
      have h97 : (97 : UInt8).toNat = 97 := rfl
      have h102 : (102 : UInt8).toNat = 102 := rfl
      have h10 : (10 : UInt8).toNat = 10 := rfl
      omega
    next => cases h

/-! ## Words -/

/-- The first `n` words of a number, the lowest first. -/
def wordsOf (n v : Nat) : List Byte :=
  (List.range n).flatMap fun k => le8 (UInt64.ofNat (v / 2 ^ (64 * k)))

theorem length_wordsOf (n v : Nat) : (wordsOf n v).length = n * 8 := by
  unfold wordsOf
  rw [length_flatMap_of (fun _ => length_le8 _), List.length_range]

/-- The lowest word comes first. -/
theorem wordsOf_succ (n v : Nat) :
    wordsOf (n + 1) v = le8 (UInt64.ofNat v) ++ wordsOf n (v / 2 ^ 64) := by
  unfold wordsOf
  rw [List.range_succ_eq_map, List.flatMap_cons, List.flatMap_map, Nat.mul_zero, Nat.pow_zero,
    Nat.div_one]
  congr 1
  apply List.flatMap_congr
  intro k _
  rw [Nat.div_div_eq_div_mul, ← Nat.pow_add, Nat.mul_succ, Nat.add_comm]

theorem ofNat_or_shiftLeft {x y s : Nat} (hs : s < 64) (hx : x < 2 ^ s) (hy : 2 ^ s * y < 2 ^ 64) :
    UInt64.ofNat x ||| UInt64.ofNat y <<< UInt64.ofNat s = UInt64.ofNat (2 ^ s * y + x) := by
  have hpos : 0 < 2 ^ s := Nat.two_pow_pos s
  have hle : 2 ^ s ≤ 2 ^ 64 := Nat.pow_le_pow_right (by decide) (Nat.le_of_lt hs)
  have hy' : y < 2 ^ 64 := Nat.lt_of_le_of_lt (Nat.le_mul_of_pos_left y hpos) hy
  apply UInt64.toNat_inj.mp
  rw [UInt64.toNat_or, UInt64.toNat_shiftLeft,
    UInt64.toNat_ofNat_of_lt' (show x < 2 ^ 64 from Nat.lt_of_lt_of_le hx hle),
    UInt64.toNat_ofNat_of_lt' (show y < 2 ^ 64 from hy'),
    UInt64.toNat_ofNat_of_lt' (show s < 2 ^ 64 by omega), Nat.mod_eq_of_lt hs, Nat.shiftLeft_eq,
    Nat.mul_comm, Nat.mod_eq_of_lt hy, Nat.or_comm, ← Nat.two_pow_add_eq_or_of_lt hx]
  refine (UInt64.toNat_ofNat_of_lt' (show _ < 2 ^ 64 from ?_)).symm
  have hsplit : 2 ^ 64 = 2 ^ s * 2 ^ (64 - s) := by
    rw [← Nat.pow_add]
    congr 1
    omega
  rw [hsplit] at hy ⊢
  have hlt := Nat.lt_of_mul_lt_mul_left hy
  calc 2 ^ s * y + x < 2 ^ s * y + 2 ^ s := by omega
    _ = 2 ^ s * (y + 1) := (Nat.mul_succ _ _).symm
    _ ≤ 2 ^ s * 2 ^ (64 - s) := Nat.mul_le_mul_left _ hlt

theorem shiftLeft_or_ofNat {x d : Nat} (hx : x < 2 ^ 60) (hd : d < 16) :
    UInt64.ofNat x <<< 4 ||| UInt64.ofNat d = UInt64.ofNat (16 * x + d) := by
  rw [UInt64.or_comm]
  exact ofNat_or_shiftLeft (s := 4) (by decide) hd (by omega)

/-- A number below `2 ^ 64` and a multiple of it: the first word, and the others. -/
theorem wordsOf_add {n x y : Nat} (hx : x < 2 ^ 64) :
    wordsOf (n + 1) (x + 2 ^ 64 * y) = le8 (UInt64.ofNat x) ++ wordsOf n y := by
  have hlow : UInt64.ofNat (x + 2 ^ 64 * y) = UInt64.ofNat x := by
    apply UInt64.toNat_inj.mp
    rw [UInt64.toNat_ofNat', UInt64.toNat_ofNat', Nat.add_mul_mod_self_left]
  rw [wordsOf_succ, hlow, Nat.add_mul_div_left _ _ (Nat.two_pow_pos 64), Nat.div_eq_of_lt hx,
    Nat.zero_add]

end OpBase.Lib
