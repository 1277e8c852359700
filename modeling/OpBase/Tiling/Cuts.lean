import OpBase.Tiling.BroadcastCovers

/-!
# Lengths cut into pieces

What the element-wise tiling and the one for a single axis have in common: a length is cut
into blocks for the cores, and what a core has got into pieces for its buffer. The pieces
follow one another, and all of them have one length but the last, which is not empty.

The sums are made in `int64_t` before the divisions, so that each cut comes with the bound
that keeps its sum from overflowing.
-/

namespace OpBase.Tiling

open OpBase.Lib.Checked

/-- `n` pieces, of length `f` but for the last one of length `tail`, make up the length `d`. -/
structure Cut (d f n tail : ℤ) : Prop where
  num_pos : 0 < n
  tail_pos : 0 < tail
  tail_le : tail ≤ f
  total : (n - 1) * f + tail = d

/-- Cutting `d` into pieces of `f`. -/
theorem cut_pieces {d f : ℤ} (hd : 0 < d) (hf : 0 < f) :
    Cut d f (pieces d f) (d - (pieces d f - 1) * f) where
  num_pos := pieces_pos hd hf
  tail_pos := (pieces_tail d hf).1
  tail_le := (pieces_tail d hf).2
  total := by ring

theorem int64_lt {z q : ℤ} (h : int64 z = .ok q) : z < 2 ^ 63 := by
  unfold int64 at h
  split at h
  next hr => exact hr.2
  next => cases h

theorem divide_eq_ok {a b q : ℤ} (h : divide a b = .ok q) : b ≠ 0 ∧ q = a.tdiv b := by
  unfold divide at h
  split at h
  · cases h
  next hb => exact ⟨hb, (Except.ok.inj h).symm⟩

theorem Cut.tail_eq {d f n tail : ℤ} (h : Cut d f n tail) :
    tail = if d % f = 0 then f else d % f := by
  have hrem : d % f = tail % f := by
    rw [← h.total, add_comm, mul_comm, Int.add_mul_emod_self_left]
  rcases h.tail_le.lt_or_eq with hlt | heq
  · have htail : tail % f = tail := Int.emod_eq_of_lt h.tail_pos.le hlt
    rw [hrem, htail, if_neg h.tail_pos.ne']
  · rw [hrem, heq, Int.emod_self, if_pos rfl]

/-- `a % b`, undefined for zero. -/
def remainder (a b : ℤ) : Except Fault ℤ := if b = 0 then .error .undefined else .ok (a.tmod b)

theorem remainder_eq {a b : ℤ} (ha : 0 ≤ a) (hb : b ≠ 0) : remainder a b = .ok (a % b) := by
  rw [remainder, if_neg hb, Int.tmod_eq_emod_of_nonneg ha]

theorem remainder_ne_zero {a b r : ℤ} (h : remainder a b = .ok r) : b ≠ 0 := by
  unfold remainder at h
  split at h
  · cases h
  next hb => exact hb

/-- `(a + b - 1) / b` in `int64_t`. -/
def ceilQuotient (a b : ℤ) : Except Fault ℤ := do
  let sum ← int64 (a + b)
  let sum ← int64 (sum - 1)
  let quotient ← divide sum b
  int64 quotient

theorem pieces_nonneg {d f : ℤ} (hd : 0 ≤ d) (hf : 0 < f) : 0 ≤ pieces d f :=
  Int.ediv_nonneg (by omega) hf.le

/-- The rounded-up quotient, where the sum fits. -/
theorem ceilQuotient_eq {a b : ℤ} (ha : 0 ≤ a) (hb : 0 < b) (h : a + b < 2 ^ 63) :
    ceilQuotient a b = .ok (pieces a b) := by
  have hle : pieces a b ≤ a := (pieces_le_iff hb).mpr (le_mul_of_one_le_right ha hb)
  have hpos := pieces_nonneg ha hb
  unfold ceilQuotient
  rw [int64_eq (by omega) h, ok_bind, int64_eq (by omega) (by omega), ok_bind,
    divide_eq (by omega) hb.ne', ok_bind]
  exact int64_eq hpos (by unfold pieces at hle; omega)

theorem ceilQuotient_lt {a b q : ℤ} (h : ceilQuotient a b = .ok q) : a + b < 2 ^ 63 ∧ b ≠ 0 := by
  unfold ceilQuotient at h
  obtain ⟨s, hs, h⟩ := bind_eq_ok.mp h
  obtain ⟨s', -, h⟩ := bind_eq_ok.mp h
  obtain ⟨q', hq, -⟩ := bind_eq_ok.mp h
  exact ⟨int64_lt hs, (divide_eq_ok hq).1⟩

end OpBase.Tiling
