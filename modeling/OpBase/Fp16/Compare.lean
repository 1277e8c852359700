import OpBase.Fp16.ToInt

/-!
# Comparisons

The comparison operators of `fp16_t`. They look at the fields, so that an infinity is a number
behind the finite ones, and a NaN one behind the infinities.

> `compare_values`: each is the comparison of the values, with one zero.
-/

namespace OpBase.Fp16

open OpBase.Lib
open FloatFormat (half)

/-- `FP16_IS_ZERO` -/
def isZero (x : Nat) : Bool := x &&& FP16_ABS_MAX = 0

/-- `fp16_t::operator==` -/
def eq (val fp : Nat) : Bool :=
  if isZero val && isZero fp then true else val &&& 0xFFFF = fp &&& 0xFFFF

/-- `fp16_t::operator!=` -/
def ne (val fp : Nat) : Bool :=
  if isZero val && isZero fp then false else val &&& 0xFFFF ≠ fp &&& 0xFFFF

/-- `fp16_t::operator>` -/
def gt (val fp : Nat) : Bool :=
  let sA := (val >>> 15) &&& 1
  let sB := (fp >>> 15) &&& 1
  let eA := (val >>> 10) &&& FP16_MAX_EXP
  let eB := (fp >>> 10) &&& FP16_MAX_EXP
  let mA := (extractFP16 val).2.2
  let mB := (extractFP16 fp).2.2
  if sA = 0 ∧ 0 < sB then !(isZero val && isZero fp)
  else if sA = 0 ∧ sB = 0 then if eB < eA then true else if eA = eB then mB < mA else false
  else if 0 < sA ∧ 0 < sB then if eA < eB then true else if eA = eB then mA < mB else false
  else false

/-- `fp16_t::operator>=` -/
def ge (val fp : Nat) : Bool := if gt val fp then true else if eq val fp then true else false

/-- `fp16_t::operator<` -/
def lt (val fp : Nat) : Bool := if ge val fp then false else true

/-- `fp16_t::operator<=` -/
def le (val fp : Nat) : Bool := if gt val fp then false else true

/-! ## The order of the patterns -/

/-- The number of a pattern among all, the zeros being one. -/
def rank (v : Nat) : Int := if half.negative v then -half.code v else half.code v

/-- The values by their numbers. -/
def ofRank (z : Int) : ℚ :=
  if z < 0 then -grid 10 half.unit z.natAbs else grid 10 half.unit z.natAbs

theorem ofRank_strictMono : StrictMono ofRank := by
  have hg := grid_strictMono 10 half.unit_pos
  have hzero : grid 10 half.unit 0 = 0 := by simp [grid, mag]
  refine strictMono_of_odd_strictMonoOn_nonneg (fun z => ?_) fun a ha b hb hab => ?_
  · unfold ofRank
    rw [Int.natAbs_neg]
    rcases lt_trichotomy z 0 with h | rfl | h
    · rw [if_neg (by omega), if_pos h, neg_neg]
    · simp [hzero]
    · rw [if_pos (by omega), if_neg (by omega)]
  · have ha : 0 ≤ a := ha
    have hb : 0 ≤ b := hb
    unfold ofRank
    rw [if_neg (by omega), if_neg (by omega)]
    exact hg (by omega)

theorem value_eq (v : Nat) : half.value v = ofRank (rank v) := by
  have hzero : grid 10 half.unit 0 = 0 := by simp [grid, mag]
  unfold FloatFormat.value ofRank rank FloatFormat.magnitude
  cases half.negative v with
  | true =>
    rcases Nat.eq_zero_or_pos (half.code v) with h | h
    · simp only [h, if_true, Int.natCast_zero, neg_zero, lt_irrefl, if_false, Int.natAbs_zero,
        hzero]
      exact neg_eq_zero.mpr hzero
    · simp only [if_true, Int.natAbs_neg, Int.natAbs_natCast]
      rw [if_pos (by omega)]
      rfl
  | false =>
    simp only [Bool.false_eq_true, if_false, Int.natAbs_natCast]
    rw [if_neg (by omega)]
    rfl

theorem value_lt_iff (v w : Nat) : half.value v < half.value w ↔ rank v < rank w := by
  rw [value_eq, value_eq, ofRank_strictMono.lt_iff_lt]

theorem value_eq_iff (v w : Nat) : half.value v = half.value w ↔ rank v = rank w := by
  rw [value_eq, value_eq, ofRank_strictMono.injective.eq_iff]

/-! ## The fields -/

theorem isZero_iff (v : Nat) : isZero v = true ↔ half.code v = 0 := by
  unfold isZero
  rw [decide_eq_true_iff, half_code]
  exact (Nat.and_two_pow_sub_one_eq_mod v 15).congr_left

theorem man_eq (v : Nat) : (extractFP16 v).2.2 =
    half.code v % 2 ^ 10 + if half.code v / 2 ^ 10 = 0 then 0 else 2 ^ 10 := by
  have hlow : v &&& 0x3FF = half.code v % 2 ^ 10 := by
    rw [half_code]
    exact (Nat.and_two_pow_sub_one_eq_mod v 10).trans (by omega)
  have hlt := Nat.mod_lt (half.code v) (Nat.two_pow_pos 10)
  unfold extractFP16
  rw [hlow, show (v >>> 10) &&& 0x1F = half.code v / 2 ^ 10 from exp_eq v]
  by_cases h : half.code v / 2 ^ 10 = 0
  · rw [if_neg (by omega), if_pos h, Nat.zero_mul, Nat.or_zero, Nat.add_zero]
  · have hor := Nat.two_pow_add_eq_or_of_lt hlt 1
    rw [if_pos (by omega), if_neg h, Nat.or_comm, Nat.add_comm]
    exact hor.symm

theorem fields_lt (a b : Nat) : (if b / 2 ^ 10 < a / 2 ^ 10 then true
    else if a / 2 ^ 10 = b / 2 ^ 10 then
      decide (b % 2 ^ 10 + (if b / 2 ^ 10 = 0 then 0 else 2 ^ 10) <
        a % 2 ^ 10 + if a / 2 ^ 10 = 0 then 0 else 2 ^ 10)
    else false) = true ↔ b < a := by
  split
  next => exact iff_of_true rfl (by omega)
  next =>
    split
    next heq =>
      rw [heq, decide_eq_true_iff]
      omega
    next => exact iff_of_false Bool.false_ne_true (by omega)

theorem gt_iff (v w : Nat) : gt v w = true ↔ rank w < rank v := by
  have hv := isZero_iff v
  have hw := isZero_iff w
  unfold gt rank
  simp only [sign_eq, exp_eq, man_eq]
  generalize half.code v = a at *
  generalize half.code w = b at *
  cases half.negative v with
  | false =>
    cases half.negative w with
    | false => simpa using fields_lt a b
    | true =>
      simp [Bool.eq_false_iff, hv, hw]
      omega
  | true =>
    cases half.negative w with
    | false => simp
    | true =>
      have h := fields_lt b a
      simp only [@eq_comm _ (b / 2 ^ 10) (a / 2 ^ 10)] at h
      simpa using h

theorem eq_iff (v w : Nat) : eq v w = true ↔ rank v = rank w := by
  have hv := isZero_iff v
  have hw := isZero_iff w
  have hbits : ∀ x, x &&& 0xFFFF = (half.negative x).toNat * 2 ^ 15 + half.code x := by
    intro x
    rw [← sign_eq, Nat.and_one_is_mod, Nat.shiftRight_eq_div_pow, half_code]
    exact (Nat.and_two_pow_sub_one_eq_mod x 16).trans (by omega)
  have hv' : half.code v < 2 ^ 15 := Nat.mod_lt v (Nat.two_pow_pos 15)
  have hw' : half.code w < 2 ^ 15 := Nat.mod_lt w (Nat.two_pow_pos 15)
  unfold eq rank
  simp only [hbits]
  generalize half.code v = a at *
  generalize half.code w = b at *
  by_cases hzero : a = 0 ∧ b = 0
  · rw [if_pos (by simp [hv, hw, hzero]), hzero.1, hzero.2]
    simp
  · rw [if_neg (by simpa [hv, hw] using hzero), decide_eq_true_iff]
    cases half.negative v <;> cases half.negative w <;> simp <;> omega

/-- **The comparisons are those of the values**: an infinity counts as 65536, a NaN as more. -/
theorem compare_values (v w : Nat) :
    (eq v w = true ↔ half.value v = half.value w) ∧ (ne v w = true ↔ half.value v ≠ half.value w) ∧
      (gt v w = true ↔ half.value w < half.value v) ∧
      (ge v w = true ↔ half.value w ≤ half.value v) ∧
      (lt v w = true ↔ half.value v < half.value w) ∧
      (le v w = true ↔ half.value v ≤ half.value w) := by
  have hne : ne v w = !eq v w := by
    unfold ne eq
    split
    · rfl
    · exact (decide_not ..)
  have hge : ge v w = (gt v w || eq v w) := by
    unfold ge
    cases gt v w <;> cases eq v w <;> rfl
  have hlt : lt v w = !ge v w := by
    unfold lt
    cases ge v w <;> rfl
  have hle : le v w = !gt v w := by
    unfold le
    cases gt v w <;> rfl
  simp only [hlt, hne, hge, hle, Bool.not_eq_true', Bool.or_eq_true, ← Bool.not_eq_true, gt_iff,
    eq_iff, ← not_lt, value_lt_iff, value_eq_iff, ne_eq]
  exact ⟨trivial, trivial, trivial, by omega, by omega, trivial⟩

end OpBase.Fp16
