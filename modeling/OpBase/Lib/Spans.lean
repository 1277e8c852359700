import Mathlib

/-!
# Bytes around a buffer

A pointer that is moved back from a place inside a buffer can end up in front of it. Places
are counted from the beginning of the buffer, so they are negative there. `Inside` says byte
by byte that the buffer has all of a span; where nothing is written any place will do.

> `inside_iff`: a span without bytes, or one that begins and ends in the buffer.
>
> `items_inside`: the same for a row of items of one size.
>
> `reach_le`: a buffer has some parts if it is as long as they reach.
-/

namespace OpBase.Lib

/-- `len` bytes from `start` on. -/
@[ext]
structure Span where
  start : Int
  len : Nat
deriving DecidableEq

namespace Span

/-- The byte at `i` is one of them. -/
def Has (x : Span) (i : Int) : Prop := x.start ≤ i ∧ i < x.start + x.len

/-- Every byte is one of the `size` bytes of the buffer. -/
def Inside (size : Nat) (x : Span) : Prop := ∀ i, x.Has i → 0 ≤ i ∧ i < size

/-- A span that does not begin in front of the buffer. -/
def ofNat (start len : Nat) : Span := ⟨start, len⟩

/-- A row of `n` items. -/
def items (start : Int) (width n : Nat) : List Span :=
  (List.range n).map fun i : Nat => ⟨start + (width * i : Nat), width⟩

variable {size : Nat} {x : Span}

/-- An empty span is inside, and another one if both of its ends are. -/
theorem inside_iff : x.Inside size ↔ x.len = 0 ∨ 0 ≤ x.start ∧ x.start + x.len ≤ size := by
  unfold Inside Has
  constructor
  · intro h
    by_cases hlen : x.len = 0
    · exact Or.inl hlen
    · have hfirst := h x.start ⟨Int.le_refl _, by omega⟩
      have hlast := h (x.start + x.len - 1) ⟨by omega, by omega⟩
      exact Or.inr ⟨hfirst.1, by omega⟩
  · intro h i hi
    omega

instance (size : Nat) (x : Span) : Decidable (x.Inside size) :=
  decidable_of_iff _ inside_iff.symm

theorem ofNat_inside {start len : Nat} :
    (ofNat start len).Inside size ↔ len = 0 ∨ start + len ≤ size := by
  rw [inside_iff]
  unfold ofNat
  dsimp only
  omega

/-- All items of an array are inside just when the array is. -/
theorem items_inside {start : Int} {width n : Nat} (hwidth : 0 < width) :
    (∀ x ∈ items start width n, x.Inside size) ↔
      n = 0 ∨ 0 ≤ start ∧ start + (width * n : Nat) ≤ size := by
  unfold items
  rw [List.forall_mem_map]
  constructor
  · intro h
    cases n with
    | zero => exact Or.inl rfl
    | succ n =>
      have hfirst := inside_iff.mp (h 0 (List.mem_range.mpr (Nat.succ_pos n)))
      have hlast := inside_iff.mp (h n (List.mem_range.mpr (Nat.lt_succ_self n)))
      dsimp only at hfirst hlast
      rw [Nat.mul_zero] at hfirst
      rw [Nat.mul_succ]
      omega
  · intro h i hi
    rw [List.mem_range] at hi
    have hle : width * (i + 1) ≤ width * n := Nat.mul_le_mul_left width hi
    rw [Nat.mul_succ] at hle
    rw [inside_iff]
    dsimp only
    omega

/-! ## How far parts reach -/

/-- Behind the last byte of some parts, each given by its beginning and its length. -/
def reach (parts : List (Nat × Nat)) : Nat :=
  (parts.map fun x => if x.2 = 0 then 0 else x.1 + x.2).foldr max 0

theorem reach_cons (x : Nat × Nat) (parts : List (Nat × Nat)) :
    reach (x :: parts) = max (if x.2 = 0 then 0 else x.1 + x.2) (reach parts) := rfl

/-- What the parts reach is inside just when each part is. -/
theorem reach_le {parts : List (Nat × Nat)} :
    reach parts ≤ size ↔ ∀ x ∈ parts, (ofNat x.1 x.2).Inside size := by
  induction parts with
  | nil => exact iff_of_true (Nat.zero_le _) nofun
  | cons x parts ih =>
    rw [reach_cons, Nat.max_le, ih, List.forall_mem_cons, ofNat_inside]
    refine and_congr_left' ?_
    split
    next h => exact iff_of_true (Nat.zero_le _) (Or.inl h)
    next h => exact (or_iff_right h).symm

theorem items_inside_ofNat {start width n : Nat} (hwidth : 0 < width) :
    (∀ x ∈ items start width n, x.Inside size) ↔ (ofNat start (width * n)).Inside size := by
  rw [items_inside hwidth, ofNat_inside, Nat.mul_eq_zero, or_iff_right hwidth.ne']
  omega

end Span

end OpBase.Lib
