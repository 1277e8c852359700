import Mathlib

/-!
# Rounding to the nearest number of a binary format

The magnitudes of a binary floating-point format, subnormal ones first, stand in one
increasing sequence: number `n` has the bits of `n` as exponent and mantissa fields. So a
carry out of the mantissa is just the next number, and "even mantissa" is "even `n`".

A format without a largest exponent gives the sequence no end (`mag`). The value of a
bounded format that overflows is the first number behind its largest one, so
rounding is stated on the endless sequence:

> `nearestEven_place`: a value that lies `r / 2 ^ t` of the way from number `n` to the
> next rounds to the one or the other by the top bit of `r`, the rest of it and the last
> bit of `n`, which is what an implementation looks at.
>
> `NearestEven.unique`: there is one such number.
-/

namespace OpBase.Lib

/-! ## Nearest numbers of a sequence -/

/-- Number `n` of the sequence is nearest to `x`, and where another one is as near, `n` is
even. -/
def NearestEven (g : ℕ → ℚ) (x : ℚ) (n : ℕ) : Prop :=
  (∀ m, |g n - x| ≤ |g m - x|) ∧ ∀ m, m ≠ n → |g m - x| = |g n - x| → n % 2 = 0

variable {m : ℕ}

section Nearest

variable {g : ℕ → ℚ} {x : ℚ} {n : ℕ}

section

variable (hg : StrictMono g)
include hg

/-- Below `g (n + 1)` and above `g n`, only these two can be nearest. -/
theorem dist_outside (hlo : g n ≤ x) (hhi : x ≤ g (n + 1)) (hm : m ≠ n) (hm' : m ≠ n + 1) :
    |g n - x| < |g m - x| ∨ |g (n + 1) - x| < |g m - x| := by
  rw [abs_of_nonpos (sub_nonpos.mpr hlo), abs_of_nonneg (sub_nonneg.mpr hhi)]
  rcases Nat.lt_or_gt_of_ne hm with hlt | hgt
  · left
    have := hg hlt
    rw [abs_of_nonpos (by linarith)]
    linarith
  · right
    have := hg (show n + 1 < m by omega)
    rw [abs_of_nonneg (by linarith)]
    linarith

theorem nearestEven_lower (hlo : g n ≤ x)
    (h : x - g n < g (n + 1) - x) : NearestEven g x n := by
  have hhi : x ≤ g (n + 1) := by linarith [hg (Nat.lt_succ_self n)]
  have hn : |g n - x| < |g (n + 1) - x| := by
    rw [abs_of_nonpos (sub_nonpos.mpr hlo), abs_of_nonneg (sub_nonneg.mpr hhi)]
    linarith
  have hother : ∀ m, m ≠ n → |g n - x| < |g m - x| := by
    intro m hm
    by_cases hm' : m = n + 1
    · rw [hm']
      exact hn
    · exact (dist_outside hg hlo hhi hm hm').elim id (hn.trans)
  refine ⟨fun m => ?_, fun m hm he => absurd he (hother m hm).ne'⟩
  by_cases hm : m = n
  · rw [hm]
  · exact (hother m hm).le

theorem nearestEven_upper (hhi : x ≤ g (n + 1))
    (h : g (n + 1) - x < x - g n) : NearestEven g x (n + 1) := by
  have hlo : g n ≤ x := by linarith [hg (Nat.lt_succ_self n)]
  have hn : |g (n + 1) - x| < |g n - x| := by
    rw [abs_of_nonpos (sub_nonpos.mpr hlo), abs_of_nonneg (sub_nonneg.mpr hhi)]
    linarith
  have hother : ∀ m, m ≠ n + 1 → |g (n + 1) - x| < |g m - x| := by
    intro m hm
    by_cases hm' : m = n
    · rw [hm']
      exact hn
    · exact (dist_outside hg hlo hhi hm' hm).elim (hn.trans) id
  refine ⟨fun m => ?_, fun m hm he => absurd he (hother m hm).ne'⟩
  by_cases hm : m = n + 1
  · rw [hm]
  · exact (hother m hm).le

theorem nearestEven_tie (h : x - g n = g (n + 1) - x) :
    NearestEven g x (n + n % 2) := by
  have hlt := hg (Nat.lt_succ_self n)
  have hlo : g n ≤ x := by linarith
  have hhi : x ≤ g (n + 1) := by linarith
  have hn : |g (n + 1) - x| = |g n - x| := by
    rw [abs_of_nonpos (sub_nonpos.mpr hlo), abs_of_nonneg (sub_nonneg.mpr hhi)]
    linarith
  have hmin : ∀ m, |g n - x| ≤ |g m - x| := by
    intro m
    by_cases hm : m = n
    · rw [hm]
    by_cases hm' : m = n + 1
    · rw [hm', hn]
    · rcases dist_outside hg hlo hhi hm hm' with hd | hd
      · exact hd.le
      · exact (hn ▸ hd).le
  rcases Nat.mod_two_eq_zero_or_one n with h0 | h1
  · rw [h0, Nat.add_zero]
    exact ⟨hmin, fun _ _ _ => h0⟩
  · rw [h1]
    exact ⟨fun m => hn ▸ hmin m, fun _ _ _ => by omega⟩

/-- Two places of the grid that are both nearest, ties to even, are the same. -/
theorem NearestEven.unique (hn : NearestEven g x n) (hm : NearestEven g x m) : n = m := by
  -- two nearest numbers lie on both sides, with no number in between, so one of them is odd
  have key : ∀ {a b : ℕ}, a < b → NearestEven g x a → NearestEven g x b → False := by
    intro a b hab ha hb
    have heq : |g a - x| = |g b - x| := le_antisymm (ha.1 b) (hb.1 a)
    have hgab := hg hab
    have hax : g a ≤ x := by
      by_contra hcon
      rw [abs_of_pos (by linarith), abs_of_pos (by linarith)] at heq
      linarith
    have hxb : x ≤ g b := by
      by_contra hcon
      rw [abs_of_nonpos (by linarith), abs_of_neg (by linarith)] at heq
      linarith
    have hsucc : b = a + 1 := by
      by_contra hne
      have h1 := hg (show a < a + 1 by omega)
      have h2 := hg (show a + 1 < b by omega)
      have hle := ha.1 (a + 1)
      rw [heq] at hle
      rw [abs_of_nonneg (sub_nonneg.mpr hxb)] at heq hle
      rw [abs_of_nonpos (sub_nonpos.mpr hax)] at heq
      rcases le_total (g (a + 1)) x with hx | hx
      · rw [abs_of_nonpos (sub_nonpos.mpr hx)] at hle
        linarith
      · rw [abs_of_nonneg (sub_nonneg.mpr hx)] at hle
        linarith
    have hea := ha.2 b (by omega) heq.symm
    have heb := hb.2 a (by omega) heq
    omega
  rcases Nat.lt_trichotomy n m with h | h | h
  · exact (key h hn hm).elim
  · exact h
  · exact (key h hm hn).elim

/-- A value on the grid is nearest to itself. -/
theorem nearestEven_self (n : ℕ) : NearestEven g (g n) n := by
  refine ⟨fun m => ?_, fun m hm h => absurd (hg.injective ?_) hm⟩
  · rw [sub_self, abs_zero]
    exact abs_nonneg _
  · rwa [sub_self, abs_zero, abs_eq_zero, sub_eq_zero] at h

theorem middle_le (hlt : m < n) (h : |g n - x| ≤ |g m - x|) :
    g m + g n ≤ 2 * x := by
  have hpos := sub_pos.mpr (hg hlt)
  have hsq := sq_le_sq.mpr h
  have hmul : (g n - g m) * (g m + g n - 2 * x) ≤ 0 := by linarith
  linarith [nonpos_of_mul_nonpos_right hmul hpos]

/-- Rounding is monotone. -/
theorem NearestEven.le_of_le {y : ℚ} (hn : NearestEven g x n) (hm : NearestEven g y m)
    (hxy : x ≤ y) : n ≤ m := by
  by_contra hlt
  have hgt := hg (Nat.not_le.mp hlt)
  have hx := middle_le hg (Nat.not_le.mp hlt) (hn.1 m)
  -- the two middles are one, so `x` is `y` and has one nearest number
  have hy : 2 * y ≤ g m + g n := by
    have hsq := sq_le_sq.mpr (hm.1 n)
    have hmul : (g n - g m) * (2 * y - (g m + g n)) ≤ 0 := by linarith
    linarith [nonpos_of_mul_nonpos_right hmul (sub_pos.mpr hgt)]
  obtain rfl : x = y := by linarith
  exact hlt (hn.unique hg hm).le

end

end Nearest

/-! ## The numbers of a format -/

/-- The number with the bits of `n`, in units of the smallest: `p` bits of mantissa below
the exponent, no hidden bit for exponent zero. -/
def mag (p n : ℕ) : ℕ := if n < 2 ^ p then n else (2 ^ p + n % 2 ^ p) * 2 ^ (n / 2 ^ p - 1)

/-- The number with exponent field `e + 1` and significand `m`, hidden bit included; with
`e = 0` also the one with exponent field `0`. A significand that has just grown by a bit
gives the next number. -/
theorem mag_place {p e : ℕ} (h : 2 ^ p ≤ m ∨ e = 0) (hm : m ≤ 2 ^ (p + 1)) :
    mag p (e * 2 ^ p + m) = m * 2 ^ e := by
  have hp := Nat.two_pow_pos p
  rw [Nat.pow_succ] at hm
  by_cases hlow : m < 2 ^ p
  · have he : e = 0 := h.resolve_left (Nat.not_le.mpr hlow)
    subst he
    simp [mag, hlow]
  · obtain ⟨r, rfl⟩ := Nat.exists_eq_add_of_le (Nat.not_lt.mp hlow)
    have hn : e * 2 ^ p + (2 ^ p + r) = (e + 1) * 2 ^ p + r := by ring
    have hge : ¬ (e + 1) * 2 ^ p + r < 2 ^ p := by
      rw [Nat.add_mul, Nat.one_mul]
      omega
    rw [hn, mag, if_neg hge]
    by_cases hr : r = 2 ^ p
    · -- the significand is `2 ^ (p + 1)`
      subst hr
      have hn' : (e + 1) * 2 ^ p + 2 ^ p = (e + 2) * 2 ^ p := by ring
      rw [hn', Nat.mul_mod_left, Nat.mul_div_cancel _ hp]
      show (2 ^ p + 0) * 2 ^ (e + 1) = (2 ^ p + 2 ^ p) * 2 ^ e
      rw [Nat.pow_succ]
      ring
    · have hr' : r < 2 ^ p := by omega
      rw [Nat.add_comm ((e + 1) * 2 ^ p) r, Nat.add_mul_mod_self_right, Nat.mod_eq_of_lt hr',
        Nat.add_mul_div_right _ _ hp, Nat.div_eq_of_lt hr', Nat.zero_add, Nat.add_sub_cancel]

theorem exists_place (p n : ℕ) : ∃ e m, n = e * 2 ^ p + m ∧ (2 ^ p ≤ m ∨ e = 0) ∧
    m < 2 ^ (p + 1) := by
  have hp := Nat.two_pow_pos p
  have hmod := Nat.mod_lt n hp
  have hdiv := Nat.div_add_mod n (2 ^ p)
  by_cases hlow : n < 2 ^ p
  · exact ⟨0, n, by omega, Or.inr rfl, by rw [Nat.pow_succ]; omega⟩
  · have hpos : 0 < n / 2 ^ p := Nat.div_pos (Nat.not_lt.mp hlow) hp
    obtain ⟨e, he⟩ := Nat.exists_eq_succ_of_ne_zero hpos.ne'
    refine ⟨e, 2 ^ p + n % 2 ^ p, ?_, Or.inl (Nat.le_add_right _ _), by rw [Nat.pow_succ]; omega⟩
    rw [he, Nat.succ_eq_add_one, Nat.mul_add, Nat.mul_one, Nat.mul_comm] at hdiv
    omega

theorem mag_strictMono (p : ℕ) : StrictMono (mag p) := by
  refine strictMono_nat_of_lt_succ fun n => ?_
  obtain ⟨e, m, rfl, h, hm⟩ := exists_place p n
  rw [mag_place h hm.le, Nat.add_assoc, mag_place (h.imp_left fun h => by omega) hm]
  exact Nat.mul_lt_mul_of_pos_right (Nat.lt_succ_self m) (Nat.two_pow_pos e)

/-- The endless sequence of the numbers, the smallest being `u`. -/
def grid (p : ℕ) (u : ℚ) (n : ℕ) : ℚ := mag p n * u

/-- The magnitudes of the codes increase with the codes. -/
theorem grid_strictMono (p : ℕ) {u : ℚ} (hu : 0 < u) : StrictMono (grid p u) := by
  intro a b hab
  have : (mag p a : ℚ) < mag p b := Nat.cast_lt.mpr (mag_strictMono p hab)
  exact mul_lt_mul_of_pos_right this hu

/-- One more in the last place or not, by the bits that are cut off and the last one kept. -/
def roundUp (n r t : ℕ) : ℕ := if 2 ^ t < 2 * r ∨ 2 * r = 2 ^ t ∧ n % 2 = 1 then 1 else 0

theorem roundUp_le_one (n r t : ℕ) : roundUp n r t ≤ 1 := by
  unfold roundUp
  split <;> omega

/-- Rounding sees the remainder only relative to its unit. -/
theorem roundUp_mul_two_pow (n r t k : ℕ) : roundUp n (r * 2 ^ k) (t + k) = roundUp n r t := by
  have hk := Nat.two_pow_pos k
  have hmul : 2 * (r * 2 ^ k) = 2 * r * 2 ^ k := by ring
  have hlt : 2 ^ t * 2 ^ k < 2 * r * 2 ^ k ↔ 2 ^ t < 2 * r := Nat.mul_lt_mul_right hk
  have heq : 2 * r * 2 ^ k = 2 ^ t * 2 ^ k ↔ 2 * r = 2 ^ t := Nat.mul_left_inj hk.ne'
  unfold roundUp
  rw [Nat.pow_add, hmul]
  simp only [hlt, heq]

/-- A value `r / 2 ^ t` of the way from a number to the next, which are `m` and `m + 1` units. -/
theorem nearestEven_between {g : ℕ → ℚ} (hg : StrictMono g) {n r t : ℕ} {w x : ℚ} (hw : 0 < w)
    (hlo : g n = m * w) (hhi : g (n + 1) = (m + 1) * w) (hpar : n % 2 = m % 2) (hr : r < 2 ^ t)
    (hx : x = (m + r / 2 ^ t) * w) : NearestEven g x (n + roundUp m r t) := by
  -- the parts of the gap below and above the value
  have hbelow : x - g n = r / 2 ^ t * w := by
    rw [hlo, hx]
    ring
  have habove : g (n + 1) - x = (1 - r / 2 ^ t) * w := by
    rw [hhi, hx]
    ring
  have ht : (0 : ℚ) < 2 ^ t := by positivity
  have hge : (0 : ℚ) ≤ r / 2 ^ t * w := by positivity
  have hle : (0 : ℚ) ≤ (1 - r / 2 ^ t) * w := by
    have : (r : ℚ) ≤ 2 ^ t := by exact_mod_cast hr.le
    have : (r : ℚ) / 2 ^ t ≤ 1 := (div_le_one ht).mpr this
    exact mul_nonneg (by linarith) hw.le
  rcases Nat.lt_trichotomy (2 * r) (2 ^ t) with hlt | heq | hgt
  · have hup : roundUp m r t = 0 := if_neg (by omega)
    have hq : (2 : ℚ) * r < 2 ^ t := by exact_mod_cast hlt
    have hhalf : (r : ℚ) / 2 ^ t < 1 - r / 2 ^ t := by
      have : (r : ℚ) / 2 ^ t < 1 / 2 := (div_lt_div_iff₀ ht two_pos).mpr (by linarith)
      linarith
    rw [hup, Nat.add_zero]
    refine nearestEven_lower hg (by linarith) ?_
    rw [hbelow, habove]
    exact mul_lt_mul_of_pos_right hhalf hw
  · have hup : roundUp m r t = m % 2 := by
      unfold roundUp
      split <;> omega
    have hq : (2 : ℚ) * r = 2 ^ t := by exact_mod_cast heq
    have hhalf : (r : ℚ) / 2 ^ t = 1 - r / 2 ^ t := by
      have : (r : ℚ) / 2 ^ t = 1 / 2 := (div_eq_div_iff ht.ne' two_ne_zero).mpr (by linarith)
      linarith
    rw [hup, ← hpar]
    refine nearestEven_tie hg ?_
    rw [hbelow, habove, ← hhalf]
  · have hup : roundUp m r t = 1 := if_pos (Or.inl hgt)
    have hq : (2 : ℚ) ^ t < 2 * r := by exact_mod_cast hgt
    have hhalf : 1 - (r : ℚ) / 2 ^ t < r / 2 ^ t := by
      have : (1 : ℚ) / 2 < r / 2 ^ t := (div_lt_div_iff₀ two_pos ht).mpr (by linarith)
      linarith
    rw [hup]
    refine nearestEven_upper hg (by linarith) ?_
    rw [hbelow, habove]
    exact mul_lt_mul_of_pos_right hhalf hw

/-- The integer nearest to `M / 2 ^ t`. -/
theorem nearestEven_int (M t : ℕ) :
    NearestEven Nat.cast (M / 2 ^ t : ℚ) (M / 2 ^ t + roundUp (M / 2 ^ t) (M % 2 ^ t) t) := by
  refine nearestEven_between Nat.strictMono_cast one_pos (mul_one _).symm ?_ rfl
    (Nat.mod_lt M (Nat.two_pow_pos t)) ?_
  · push_cast
    ring
  · have hM : (M : ℚ) = 2 ^ t * (M / 2 ^ t : ℕ) + (M % 2 ^ t : ℕ) := by
      exact_mod_cast (Nat.div_add_mod M (2 ^ t)).symm
    have ht : (2 : ℚ) ^ t ≠ 0 := by positivity
    rw [mul_one, hM, add_div, mul_div_cancel_left₀ _ ht]

/-- A value with `m` in front of the cut and `r` of `2 ^ t` behind it rounds to the number
with `m` or `m + 1` in this place. -/
theorem nearestEven_place {p e r t : ℕ} {u x : ℚ} (hp : 0 < p) (hu : 0 < u) (h : 2 ^ p ≤ m ∨ e = 0)
    (hm : m < 2 ^ (p + 1)) (hr : r < 2 ^ t) (hx : x = (m + r / 2 ^ t) * 2 ^ e * u) :
    NearestEven (grid p u) x (e * 2 ^ p + m + roundUp m r t) := by
  have hw : 0 < (2 : ℚ) ^ e * u := by positivity
  refine nearestEven_between (grid_strictMono p hu) hw ?_ ?_ ?_ hr (hx.trans (mul_assoc ..))
  · rw [grid, mag_place h hm.le]
    push_cast
    ring
  · rw [grid, Nat.add_assoc, mag_place (h.imp_left fun h => by omega) hm]
    push_cast
    ring
  · obtain ⟨q, rfl⟩ := Nat.exists_eq_succ_of_ne_zero hp.ne'
    rw [Nat.pow_succ, ← Nat.mul_assoc]
    omega

/-- The same for a natural number of units `w`, `2 ^ D` of them in a unit of the format: `t`
of its bits are behind the cut. -/
theorem nearestEven_cut {p a b D t M : ℕ} {u w x : ℚ} (hp : 0 < p) (hu : 0 < u)
    (hx : x = M * 2 ^ a * w) (hw : w * 2 ^ D = u) (hcut : a + t = b + D)
    (h : 2 ^ p ≤ M / 2 ^ t ∨ b = 0) (hm : M / 2 ^ t < 2 ^ (p + 1)) :
    NearestEven (grid p u) x (b * 2 ^ p + M / 2 ^ t + roundUp (M / 2 ^ t) (M % 2 ^ t) t) := by
  refine nearestEven_place hp hu h hm (Nat.mod_lt _ (Nat.two_pow_pos t)) ?_
  have ht : (2 : ℚ) ^ t ≠ 0 := by positivity
  have hM : (M : ℚ) = (M / 2 ^ t : ℕ) * 2 ^ t + (M % 2 ^ t : ℕ) := by
    have := Nat.div_add_mod M (2 ^ t)
    rw [Nat.mul_comm] at this
    exact_mod_cast this.symm
  have hexp : (2 : ℚ) ^ a * 2 ^ t = 2 ^ b * 2 ^ D := by rw [← pow_add, hcut, pow_add]
  calc x = M / 2 ^ t * (2 ^ a * 2 ^ t) * w := by rw [hx]; field_simp
    _ = M / 2 ^ t * 2 ^ b * u := by rw [hexp, ← hw]; ring
    _ = _ := by rw [hM, add_div, mul_div_cancel_right₀ _ ht]

/-! ## Formats -/

/-- A binary interchange format: sign, exponent and mantissa fields from the top down, the
exponent biased by `2 ^ (expBits - 1) - 1`. -/
structure FloatFormat where
  manBits : ℕ
  expBits : ℕ

namespace FloatFormat

variable (F : FloatFormat)

def half : FloatFormat := ⟨10, 5⟩
def single : FloatFormat := ⟨23, 8⟩
def double : FloatFormat := ⟨52, 11⟩

/-- A pattern without its sign. -/
def code (v : ℕ) : ℕ := v % 2 ^ (F.expBits + F.manBits)

def negative (v : ℕ) : Bool := v / 2 ^ (F.expBits + F.manBits) % 2 = 1

/-- The code of the infinities; the codes above are those of NaNs. -/
def infinity : ℕ := (2 ^ F.expBits - 1) * 2 ^ F.manBits

/-- The smallest subnormal number. -/
def unit : ℚ := 2 ^ (2 - 2 ^ (F.expBits - 1) - F.manBits : ℤ)

theorem unit_pos : 0 < F.unit := zpow_pos two_pos _

/-- The magnitude of a finite pattern. -/
def magnitude (v : ℕ) : ℚ := grid F.manBits F.unit (F.code v)

/-- The magnitude of a code whose exponent and mantissa are known, also where the mantissa has
carried. -/
theorem magnitude_place {v e : ℕ} (hcode : F.code v = e * 2 ^ F.manBits + m)
    (h : 2 ^ F.manBits ≤ m ∨ e = 0) (hm : m ≤ 2 ^ (F.manBits + 1)) :
    F.magnitude v = m * 2 ^ e * F.unit := by
  rw [magnitude, grid, hcode, mag_place h hm]
  push_cast
  rfl

/-- The value of a finite pattern. -/
def value (v : ℕ) : ℚ := if F.negative v then -F.magnitude v else F.magnitude v

/-- `v` has this sign, and the magnitude that `x` rounds to; from the first number on that
the format has no room for, infinity. -/
def RoundsTo (negative : Bool) (x : ℚ) (v : ℕ) : Prop :=
  F.negative v = negative ∧
    ∃ n, NearestEven (grid F.manBits F.unit) x n ∧ F.code v = min n F.infinity

/-- The magnitude bits of a rounded value are determined, whatever its sign. -/
theorem RoundsTo.code_unique {F : FloatFormat} {s s' : Bool} {x : ℚ} {v w : ℕ}
    (hv : F.RoundsTo s x v) (hw : F.RoundsTo s' x w) : F.code v = F.code w := by
  obtain ⟨-, n, hn, hcode⟩ := hv
  obtain ⟨-, m, hm, hcode'⟩ := hw
  rw [hcode, hcode', NearestEven.unique (grid_strictMono _ F.unit_pos) hn hm]

/-- `w` is what the pattern `v` of `F` becomes in the format `G`. -/
structure Converts (F G : FloatFormat) (v w : ℕ) : Prop where
  nan : F.infinity < F.code v → G.infinity < G.code w
  inf : F.code v = F.infinity → G.code w = G.infinity ∧ G.negative w = F.negative v
  finite : F.code v < F.infinity → G.RoundsTo (F.negative v) (F.magnitude v) w

/-- The same for a conversion that yields no infinity: the largest number of `G` is what
everything becomes that is too large for it. Of NaNs nothing is said. -/
structure Saturates (F G : FloatFormat) (v w : ℕ) : Prop where
  sign : F.code v ≤ F.infinity → G.negative w = F.negative v
  inf : F.code v = F.infinity → G.code w = G.infinity - 1
  finite : F.code v < F.infinity →
    ∃ n, NearestEven (grid G.manBits G.unit) (F.magnitude v) n ∧ G.code w = min n (G.infinity - 1)

end FloatFormat

end OpBase.Lib
