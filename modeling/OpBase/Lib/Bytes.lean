import Mathlib

/-!
# Bytes in memory

Fixed-width values as a little-endian machine stores them, and overwriting a
stretch of a buffer in place.

> `le_inj`: the bytes of a value that fits determine it.
>
> `le_ofLe`: bytes are those of their value.
>
> `patch_append`: overwriting changes the stretch and nothing around it.
-/

namespace OpBase.Lib

open List

abbrev Byte := UInt8

/-- The lowest `n` bytes of `x`, least significant first. -/
def le : Nat → Nat → List Byte
  | 0, _ => []
  | n + 1, x => UInt8.ofNat x :: le n (x / 256)

@[simp] theorem length_le : ∀ (n x : Nat), (le n x).length = n
  | 0, _ => rfl
  | n + 1, x => congrArg (· + 1) (length_le n (x / 256))

/-- Numbers of `n` bytes are told apart by them. -/
theorem le_inj : ∀ {n x y : Nat}, x < 256 ^ n → y < 256 ^ n → le n x = le n y → x = y
  | 0, x, y, hx, hy, _ => by
    rw [Nat.pow_zero] at hx hy
    omega
  | n + 1, x, y, hx, hy, h => by
    obtain ⟨hlow, hhigh⟩ := List.cons.inj h
    have hmod : x % 256 = y % 256 := by
      have := congrArg UInt8.toNat hlow
      rwa [UInt8.toNat_ofNat', UInt8.toNat_ofNat'] at this
    rw [Nat.pow_succ] at hx hy
    have hdiv : x / 256 = y / 256 := by
      apply le_inj _ _ hhigh
      · exact Nat.div_lt_of_lt_mul (by rwa [Nat.mul_comm])
      · exact Nat.div_lt_of_lt_mul (by rwa [Nat.mul_comm])
    omega

/-- The eight bytes of a word. -/
def le8 (x : UInt64) : List Byte := le 8 x.toNat

@[simp] theorem length_le8 (x : UInt64) : (le8 x).length = 8 := length_le 8 _

theorem le8_inj {x y : UInt64} : le8 x = le8 y ↔ x = y := by
  constructor
  · intro h
    exact UInt64.toNat_inj.mp (le_inj x.toNat_lt y.toNat_lt h)
  · intro h
    rw [h]

/-- The value of bytes, least significant first. -/
def ofLe : List Byte → Nat
  | [] => 0
  | b :: bs => b.toNat + 256 * ofLe bs

theorem ofLe_lt (bs : List Byte) : ofLe bs < 256 ^ bs.length := by
  induction bs with
  | nil => exact Nat.one_pos
  | cons b bs ih =>
    have hb := b.toNat_lt
    rw [ofLe, length_cons, Nat.pow_succ]
    omega

/-- The bytes behind count for a power of 256 as large as the ones in front are many. -/
theorem ofLe_append (bs cs : List Byte) :
    ofLe (bs ++ cs) = ofLe bs + 256 ^ bs.length * ofLe cs := by
  induction bs with
  | nil => rw [nil_append, length_nil, Nat.pow_zero, Nat.one_mul, ofLe, Nat.zero_add]
  | cons b bs ih =>
    rw [cons_append, ofLe, ofLe, ih, length_cons, Nat.pow_succ', Nat.mul_add,
      Nat.mul_assoc, Nat.add_assoc]

theorem le_ofLe (bs : List Byte) : le bs.length (ofLe bs) = bs := by
  induction bs with
  | nil => rfl
  | cons b bs ih =>
    have hb := b.toNat_lt
    have hlow : UInt8.ofNat (b.toNat + 256 * ofLe bs) = b := by
      apply UInt8.toNat_inj.mp
      rw [UInt8.toNat_ofNat']
      omega
    have hhigh : (b.toNat + 256 * ofLe bs) / 256 = ofLe bs := by omega
    rw [length_cons, ofLe, le, hlow, hhigh, ih]

/-- Eight bytes are those of the number that they are read as. -/
theorem le8_ofLe {bs : List Byte} (h : bs.length = 8) : le8 (UInt64.ofNat (ofLe bs)) = bs := by
  have hlt := ofLe_lt bs
  rw [h] at hlt
  unfold le8
  rw [UInt64.toNat_ofNat_of_lt' hlt]
  exact h ▸ le_ofLe bs

/-- The length of an array whose elements have `n` bytes each. -/
theorem length_flatMap_mem {α β : Type} {f : α → List β} {n : Nat} {xs : List α}
    (hlen : ∀ x ∈ xs, (f x).length = n) : (xs.flatMap f).length = xs.length * n := by
  rw [length_flatMap, map_congr_left hlen, map_const', sum_replicate_nat]

theorem length_flatMap_of {α β : Type} {f : α → List β} {n : Nat} (hlen : ∀ a, (f a).length = n)
    (xs : List α) : (xs.flatMap f).length = xs.length * n :=
  length_flatMap_mem fun x _ => hlen x

/-- Overwrite the bytes from `off` on. -/
def patch (off : Nat) (new buf : List Byte) : List Byte :=
  buf.take off ++ new ++ buf.drop (off + new.length)

/-- A patch of the length of the middle part replaces it. -/
theorem patch_append {pre old new post : List Byte} (h : old.length = new.length) :
    patch pre.length new (pre ++ (old ++ post)) = pre ++ (new ++ post) := by
  unfold patch
  rw [take_left, ← h, ← length_append, ← append_assoc pre old post, drop_left, append_assoc]

end OpBase.Lib
