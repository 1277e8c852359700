import Mathlib

/-!
# Extents laid out one behind the other

A structure of variable size is a row of extents in a buffer, each beginning where the one in
front ends or later. `Laid lo xs hi` says so of the extents `xs` between `lo` and `hi`: it can
be put together part by part, and says at once that the extents are inside and share no byte.

> `Laid.pairwise`: extents that are laid out do not overlap.
>
> `Laid.append`, `laid_items`: parts one behind the other, arrays of items of one size.
-/

namespace OpBase.Lib

/-- `len` bytes from `start` on. -/
@[ext]
structure Extent where
  start : Nat
  len : Nat
deriving DecidableEq

namespace Extent

def stop (x : Extent) : Nat := x.start + x.len

/-- The block of `total` bytes at `base` has all of it. -/
def Within (x : Extent) (base total : Nat) : Prop :=
  base ≤ x.start ∧ x.start + x.len ≤ base + total

/-- No byte is in both. -/
def Apart (x y : Extent) : Prop := x.stop ≤ y.start ∨ y.stop ≤ x.start

/-- From `lo` to `hi`, one behind the other. -/
def Laid : Nat → List Extent → Nat → Prop
  | lo, [], hi => lo ≤ hi
  | lo, x :: xs, hi => lo ≤ x.start ∧ Laid x.stop xs hi

/-- An array of `n` items. -/
def items (base width n : Nat) : List Extent :=
  (List.range n).map fun i => ⟨base + width * i, width⟩

variable {xs ys : List Extent} {lo mid hi : Nat}

theorem Laid.le : ∀ {xs : List Extent} {lo : Nat}, Laid lo xs hi → lo ≤ hi
  | [], _, h => h
  | _ :: _, _, h => h.1.trans ((Nat.le_add_right _ _).trans h.2.le)

theorem Laid.mono {hi' : Nat} (hhi : hi ≤ hi') : ∀ {xs : List Extent} {lo lo' : Nat},
    lo' ≤ lo → Laid lo xs hi → Laid lo' xs hi'
  | [], _, _, hlo, h => hlo.trans (Nat.le_trans h hhi)
  | _ :: _, _, _, hlo, h => ⟨hlo.trans h.1, h.2.mono hhi (Nat.le_refl _)⟩

/-- Extents laid up to a point, and others laid from there on. -/
theorem Laid.append : ∀ {xs : List Extent} {lo : Nat}, Laid lo xs mid → Laid mid ys hi →
    Laid lo (xs ++ ys) hi
  | [], _, h, h' => h'.mono (Nat.le_refl _) h
  | _ :: _, _, h, h' => ⟨h.1, h.2.append h'⟩

/-- Each of the extents lies between the two ends. -/
theorem Laid.bounds : ∀ {xs : List Extent} {lo : Nat}, Laid lo xs hi → ∀ x ∈ xs,
    lo ≤ x.start ∧ x.stop ≤ hi
  | y :: ys, lo, h, x, hx => by
    rcases List.mem_cons.mp hx with rfl | hx
    · exact ⟨h.1, h.2.le⟩
    · obtain ⟨hstart, hstop⟩ := h.2.bounds x hx
      exact ⟨h.1.trans ((Nat.le_add_right _ _).trans hstart), hstop⟩

/-- Extents that are laid in order lie apart. -/
theorem Laid.pairwise : ∀ {xs : List Extent} {lo : Nat}, Laid lo xs hi → xs.Pairwise Apart
  | [], _, _ => .nil
  | _ :: _, _, h =>
    .cons (fun y hy => Or.inl (h.2.bounds y hy).1) h.2.pairwise

/-- The items of an array are laid in order. -/
theorem laid_items (base width : Nat) : ∀ n, Laid base (items base width n) (base + width * n)
  | 0 => Nat.le_refl _
  | n + 1 => by
    unfold items
    rw [List.range_succ, List.map_append]
    refine (laid_items base width n).append ⟨Nat.le_refl _, ?_⟩
    show base + width * n + width ≤ base + width * (n + 1)
    rw [Nat.mul_succ, Nat.add_assoc]

theorem mem_items {base width n i : Nat} (h : i < n) :
    (⟨base + width * i, width⟩ : Extent) ∈ items base width n :=
  List.mem_map.mpr ⟨i, List.mem_range.mpr h, rfl⟩

/-- The items of an array lie in a block just when the array ends in it. -/
theorem items_within {base total array width n : Nat} (hbase : base ≤ array)
    (hroom : array ≤ base + total) :
    (∀ p ∈ items array width n, p.Within base total) ↔ array + width * n ≤ base + total := by
  unfold items
  rw [List.forall_mem_map]
  constructor
  · intro h
    cases n with
    | zero => exact hroom
    | succ n =>
      have hlast := (h n (List.mem_range.mpr (Nat.lt_succ_self n))).2
      rw [Nat.mul_succ]
      dsimp only at hlast
      omega
  · intro h i hi
    have hle : width * (i + 1) ≤ width * n :=
      Nat.mul_le_mul_left width (List.mem_range.mp hi)
    rw [Nat.mul_succ] at hle
    exact ⟨by dsimp only; omega, by dsimp only; omega⟩

end Extent

end OpBase.Lib
