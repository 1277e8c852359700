import OpBase.Lib.Strided

/-!
# Views of tensors

A view gives a tensor's elements a shape, a stride for every axis and an offset into the
storage. `tensor_view_utils.cpp` has two questions about a view: whether it can be picked as
contiguous, perhaps with its axes in another order (`CanPickViewAsContiguous`), and whether
it stays within its storage (`Validate`). The numbers are all `int64_t`, whose overflow is
undefined, and no product is checked before it is made.

> `canPickViewAsContiguous_exact_iff`: the first answer is right for every view, but where
> contiguous axes have `2 ^ 63` elements or more.
>
> `validate_exact_iff`: the second one is right for every view whose extremes are numbers
> of `int64_t`.
-/

namespace OpBase.Shape

open List hiding count
open OpBase.Lib.Strided
open Option (bind_eq_bind bind_eq_some_iff bind_some some.inj)

def IsInt64 (z : ℤ) : Prop := -2 ^ 63 ≤ z ∧ z < 2 ^ 63

instance (z : ℤ) : Decidable (IsInt64 z) := inferInstanceAs (Decidable (_ ∧ _))

/-- The result of an operation on `int64_t`; `none` is overflow. -/
def int64 (z : ℤ) : Option ℤ := if IsInt64 z then some z else none

/-- What these functions read of an `aclTensor`. -/
structure View where
  viewShape : List ℤ
  viewStrides : List ℤ
  viewOffset : ℤ
  storageShape : List ℤ
  shape_int64 : ∀ d ∈ viewShape, IsInt64 d
  strides_int64 : ∀ s ∈ viewStrides, IsInt64 s
  offset_int64 : IsInt64 viewOffset

/-- The axes of a view, as far as it has strides. -/
def View.axes (v : View) : List Axis := List.zipWith Axis.mk v.viewShape v.viewStrides

/-- The loop of `IsContiguous` over a shape and its strides, from the last axis to the first. -/
def shapeLoop (validStride : ℤ) : List Axis → Option Bool
  | [] => some true
  | a :: rest =>
    if a.size = 1 then shapeLoop validStride rest
    else if validStride ≠ a.stride then some false
    else do
      let next ← int64 (validStride * a.size)
      shapeLoop next rest

/-- The loop of `IsContiguous` over the pairs, again from the last to the first. -/
def pairsLoop (stride : ℤ) : List Axis → Option Bool
  | [] => some true
  | a :: rest =>
    if a.stride ≠ stride then some false
    else do
      let next ← int64 (stride * a.size)
      pairsLoop next rest

structure StrideShapePairs where
  pairs : List Axis
  mayTranspose : Bool
  mayBroadcast : Bool
  deriving DecidableEq

def buildLoop (lastStride : ℤ) (mayTranspose : Bool) (pairs : List Axis) :
    List Axis → StrideShapePairs
  | [] => ⟨pairs, mayTranspose, false⟩
  | a :: rest =>
    if a.stride = 0 ∧ a.size ≠ 1 then ⟨pairs, mayTranspose, true⟩
    else if a.stride ≠ 0 ∧ a.size ≠ 1 then
      buildLoop a.stride (mayTranspose || lastStride < a.stride) (pairs ++ [a]) rest
    else buildLoop lastStride mayTranspose pairs rest

/-- `INT64_MAX` stands for the stride before the first one. -/
def buildStrideShapePairs (l : List Axis) : StrideShapePairs :=
  buildLoop (2 ^ 63 - 1) false [] l

/-- `operator>=` of the pairs, the stride being the first of each. -/
def PairGe (a b : Axis) : Prop := b.stride < a.stride ∨ b.stride = a.stride ∧ b.size ≤ a.size

instance : DecidableRel PairGe := fun _ _ => inferInstanceAs (Decidable (_ ∨ _))

/-- `std::sort` over the reversed range leaves the pairs in descending order. -/
def sortPairs (pairs : List Axis) : List Axis := pairs.insertionSort PairGe

/-- Both loops go over the strides and read the shape beside them. -/
def canPickViewAsContiguous (v : View) : Option Bool :=
  if v.viewShape.length < v.viewStrides.length then none
  else do
    if ← shapeLoop 1 v.axes.reverse then some true
    else
      let built := buildStrideShapePairs v.axes
      if built.mayBroadcast then some false
      else if !built.mayTranspose then some false
      else pairsLoop 1 (sortPairs built.pairs).reverse

/-- The loop of `Validate` over the axes. -/
def offsetLoop (maxViewOffset minViewOffset : ℤ) : List Axis → Option (ℤ × ℤ)
  | [] => some (maxViewOffset, minViewOffset)
  | a :: rest => do
    let last ← int64 (a.size - 1)
    let reach ← int64 (a.stride * last)
    let upper ← int64 (maxViewOffset + max 0 reach)
    let lower ← int64 (minViewOffset + min 0 reach)
    offsetLoop upper lower rest

/-- `getShapeSize` is `gert::Shape::GetShapeSize`. -/
def validate (getShapeSize : List ℤ → ℤ) (v : View) : Option Bool :=
  if v.viewShape.length ≠ v.viewStrides.length then some false
  else do
    let storageSize := getShapeSize v.storageShape
    let (maxViewOffset, minViewOffset) ← offsetLoop v.viewOffset v.viewOffset v.axes
    let stop ← int64 (maxViewOffset + 1)
    some (!(stop > storageSize || minViewOffset < 0))

variable {v : View}

theorem View.mem_axes {a : Axis} (h : a ∈ v.axes) :
    a.size ∈ v.viewShape ∧ a.stride ∈ v.viewStrides := by
  obtain ⟨k, hk, rfl⟩ := getElem_of_mem h
  unfold View.axes at hk ⊢
  rw [getElem_zipWith]
  exact ⟨getElem_mem _, getElem_mem _⟩

theorem View.axes_sizes (h : ∀ d ∈ v.viewShape, 1 ≤ d) : ∀ a ∈ v.axes, 1 ≤ a.size :=
  fun a ha => h a.size (View.mem_axes ha).1

/-! ## The loops over contiguous axes -/

/-- Axes in front are contiguous and have more elements than `int64_t` can count. -/
def Overlong (l : List Axis) : Prop := ∃ n, Contiguous 1 (l.take n) ∧ 2 ^ 63 ≤ count (l.take n)

/-- Skipping the axes of size one is the loop over the others. -/
theorem shapeLoop_eq : ∀ (l : List Axis) (s : ℤ), shapeLoop s l = pairsLoop s (dropUnits l)
  | [], _ => rfl
  | a :: l, s => by
    rw [shapeLoop]
    by_cases h1 : a.size = 1
    · rw [if_pos h1, shapeLoop_eq l s, dropUnits, dropUnits, filter_cons_of_neg (by simpa using h1)]
    · rw [if_neg h1, dropUnits, filter_cons_of_pos (by simpa using h1), pairsLoop]
      by_cases hs : s = a.stride
      · rw [if_neg (not_not.mpr hs), if_neg (not_not.mpr hs.symm)]
        exact congrArg _ (funext fun next => shapeLoop_eq l next)
      · rw [if_pos hs, if_pos (Ne.symm hs)]

/-- If the loop ends without an overflow, it tells whether the axes are contiguous. -/
theorem pairsLoop_eq_some : ∀ {l : List Axis} {s : ℤ} {b : Bool}, pairsLoop s l = some b →
    (b = true ↔ Contiguous s l)
  | [], _, b, h => by
    obtain rfl := some.inj h
    exact ⟨fun _ => trivial, fun _ => rfl⟩
  | a :: l, s, b, h => by
    rw [pairsLoop] at h
    split at h
    next hs =>
      obtain rfl := some.inj h
      exact ⟨(nomatch ·), fun hc => absurd hc.1 hs⟩
    next hs =>
      obtain ⟨next, hn, h⟩ := bind_eq_some_iff.mp h
      have he : next = s * a.size := by
        unfold int64 at hn
        split at hn
        · exact (some.inj hn).symm
        · cases hn
      rw [pairsLoop_eq_some h, he]
      exact ⟨fun hc => ⟨not_not.mp hs, hc⟩, fun hc => hc.2⟩

/-- The loop overflows just when axes in front are contiguous and have too many elements. -/
theorem pairsLoop_eq_none : ∀ {l : List Axis} {s : ℤ}, (∀ a ∈ l, 1 ≤ a.size) → 1 ≤ s →
    s < 2 ^ 63 → (pairsLoop s l = none ↔
      ∃ n, Contiguous s (l.take n) ∧ 2 ^ 63 ≤ s * count (l.take n))
  | [], s, _, _, hs => by
    refine ⟨(nomatch ·), ?_⟩
    intro ⟨n, _, hn⟩
    rw [take_nil, show s * count [] = s from mul_one s] at hn
    omega
  | a :: l, s, h, h1, hs => by
    have ha := h a mem_cons_self
    have hl : ∀ b ∈ l, 1 ≤ b.size := fun b hb => h b (mem_cons_of_mem a hb)
    have hle : s ≤ s * a.size := by nlinarith
    -- a prefix that is too long has an axis in it
    have hcons : (∃ n, Contiguous s ((a :: l).take n) ∧ 2 ^ 63 ≤ s * count ((a :: l).take n)) ↔
        a.stride = s ∧ ∃ n, Contiguous (s * a.size) (l.take n) ∧
          2 ^ 63 ≤ s * a.size * count (l.take n) := by
      constructor
      · rintro ⟨_ | n, hc, hn⟩
        · rw [take_zero, show s * count [] = s from mul_one s] at hn
          omega
        · rw [take_succ_cons, count_cons, ← mul_assoc] at hn
          exact ⟨hc.1, n, hc.2, hn⟩
      · intro ⟨ha, n, hc, hn⟩
        refine ⟨n + 1, ⟨ha, hc⟩, ?_⟩
        rwa [take_succ_cons, count_cons, ← mul_assoc]
    rw [hcons, pairsLoop]
    split
    next hne => exact ⟨(nomatch ·), fun ⟨ha, _⟩ => absurd ha hne⟩
    next heq =>
      have heq := not_not.mp heq
      unfold int64
      split
      next hin =>
        rw [bind_eq_bind, bind_some, pairsLoop_eq_none hl (h1.trans hle) hin.2]
        exact ⟨fun h => ⟨heq, h⟩, fun h => h.2⟩
      next hout =>
        refine ⟨fun _ => ⟨heq, 0, trivial, ?_⟩, fun _ => rfl⟩
        rw [take_zero, show s * a.size * count [] = s * a.size from mul_one _]
        unfold IsInt64 at hout
        omega

/-! ## The pairs -/

/-- An axis that repeats its elements. -/
def Repeats (l : List Axis) : Prop := ∃ a ∈ l, a.stride = 0 ∧ a.size ≠ 1

instance (l : List Axis) : Decidable (Repeats l) := inferInstanceAs (Decidable (∃ a ∈ l, _))

/-- The strides do not grow from any axis to a later one. -/
def Descending (l : List Axis) : Prop := l.Pairwise fun a b => b.stride ≤ a.stride

instance (l : List Axis) : Decidable (Descending l) :=
  inferInstanceAs (Decidable (List.Pairwise _ l))

theorem buildLoop_repeats : ∀ {l : List Axis} {p : ℤ} {t : Bool} {pairs : List Axis},
    (buildLoop p t pairs l).mayBroadcast = true ↔ Repeats l
  | [], _, _, _ => ⟨(nomatch ·), fun ⟨_, h, _⟩ => (nomatch h)⟩
  | a :: l, p, t, pairs => by
    unfold Repeats
    rw [buildLoop]
    split
    next h => exact ⟨fun _ => ⟨a, mem_cons_self, h⟩, fun _ => rfl⟩
    next h =>
      have hrest : (∃ b ∈ a :: l, b.stride = 0 ∧ b.size ≠ 1) ↔ Repeats l := by
        constructor
        · intro ⟨b, hb, hz⟩
          rcases mem_cons.mp hb with rfl | hb
          · exact absurd hz h
          · exact ⟨b, hb, hz⟩
        · intro ⟨b, hb, hz⟩
          exact ⟨b, mem_cons_of_mem a hb, hz⟩
      rw [hrest]
      split
      · exact buildLoop_repeats
      · exact buildLoop_repeats

/-- Without a repeated axis the loop collects the axes that are not of size one, and sees whether
their strides descend. -/
theorem buildLoop_pairs : ∀ {l : List Axis} (p : ℤ) (t : Bool) (pairs : List Axis),
    ¬ Repeats l → (buildLoop p t pairs l).pairs = pairs ++ dropUnits l ∧
      ((buildLoop p t pairs l).mayTranspose = false ↔
        t = false ∧ (∀ a ∈ dropUnits l, a.stride ≤ p) ∧ Descending (dropUnits l))
  | [], p, t, pairs, _ =>
    ⟨(append_nil pairs).symm, fun h => ⟨h, fun _ h => (nomatch h), .nil⟩, fun h => h.1⟩
  | a :: l, p, t, pairs, hr => by
    have hl : ¬ Repeats l := fun ⟨b, hb, hz⟩ => hr ⟨b, mem_cons_of_mem a hb, hz⟩
    have ha : ¬ (a.stride = 0 ∧ a.size ≠ 1) := fun h => hr ⟨a, mem_cons_self, h⟩
    rw [buildLoop, if_neg ha]
    by_cases h1 : a.size = 1
    · rw [if_neg (fun h => h.2 h1), dropUnits, filter_cons_of_neg (by simpa using h1)]
      exact buildLoop_pairs p t pairs hl
    · have h0 : a.stride ≠ 0 := fun h => ha ⟨h, h1⟩
      rw [if_pos ⟨h0, h1⟩, dropUnits, filter_cons_of_pos (by simpa using h1)]
      obtain ⟨hp, ht⟩ := buildLoop_pairs a.stride (t || decide (p < a.stride)) (pairs ++ [a]) hl
      rw [hp, append_assoc]
      refine ⟨rfl, ht.trans ?_⟩
      unfold Descending
      rw [pairwise_cons, forall_mem_cons, Bool.or_eq_false_iff, decide_eq_false_iff_not, not_lt]
      constructor
      · intro ⟨⟨ht, hpa⟩, hle, hd⟩
        exact ⟨ht, ⟨hpa, fun b hb => (hle b hb).trans hpa⟩, hle, hd⟩
      · intro ⟨ht, ⟨hpa, _⟩, hle, hd⟩
        exact ⟨⟨ht, hpa⟩, hle, hd⟩

instance : Std.Total PairGe where
  total a b := by
    unfold PairGe
    omega

instance : IsTrans Axis PairGe where
  trans a b c := by
    unfold PairGe
    omega

theorem sortPairs_perm (l : List Axis) : (sortPairs l).reverse.Perm l :=
  (reverse_perm _).trans (perm_insertionSort PairGe l)

theorem sortPairs_ascending (l : List Axis) :
    (sortPairs l).reverse.Pairwise (·.stride ≤ ·.stride) := by
  rw [pairwise_reverse]
  refine (pairwise_insertionSort PairGe l).imp ?_
  rintro a b (h | ⟨h, -⟩)
  · exact h.le
  · exact h.le

/-! ## Contiguous views -/

/-- What `CanPickViewAsContiguous` should tell. -/
def PickExact (v : View) : Prop :=
  ∃ b, canPickViewAsContiguous v = some b ∧ (b = true ↔ Bijective v.axes)

/-- The axes that are not of size one are not overlong, neither from the last one to the first
nor, where the strides are out of order and no axis repeats, from the smallest stride to the
largest. -/
def Short (l : List Axis) : Prop :=
  ¬ Overlong (dropUnits l).reverse ∧
    (Repeats l ∨ Descending (dropUnits l) ∨ ¬ Overlong (sortPairs (dropUnits l)).reverse)

variable {l : List Axis}

theorem size_of_dropUnits (h : ∀ a ∈ l, 1 ≤ a.size) :
    ∀ a ∈ dropUnits l, 2 ≤ a.size := by
  intro a ha
  obtain ⟨ha, h1⟩ := mem_filter.mp ha
  have := h a ha
  have : a.size ≠ 1 := of_decide_eq_true h1
  omega

theorem bijective_iff_of_perm {l' : List Axis} (h : ∀ a ∈ l, 1 ≤ a.size)
    (hp : l'.Perm (dropUnits l)) (hs : l'.Pairwise (·.stride ≤ ·.stride)) :
    Bijective l ↔ Contiguous 1 l' := by
  have h2 := size_of_dropUnits h
  rw [← bijective_dropUnits h, ← bijective_iff_contiguous (fun a ha => h2 a (hp.mem_iff.mp ha)) hs]
  exact bijective_perm hp.symm fun a ha => le_of_lt (h2 a ha)

theorem Repeats.not_bijective (h : ∀ a ∈ l, 1 ≤ a.size) (hr : Repeats l) :
    ¬ Bijective l := by
  have hperm := sortPairs_perm (dropUnits l)
  have h1 : ∀ a ∈ (sortPairs (dropUnits l)).reverse, 1 ≤ a.size := fun a ha =>
    le_of_lt (size_of_dropUnits h a (hperm.mem_iff.mp ha))
  rw [bijective_iff_of_perm h hperm (sortPairs_ascending _)]
  intro hc
  obtain ⟨a, ha, h0, hne⟩ := hr
  have hmem : a ∈ (sortPairs (dropUnits l)).reverse :=
    hperm.mem_iff.mpr (mem_filter.mpr ⟨ha, decide_eq_true hne⟩)
  have := (contiguous_sorted zero_lt_one h1 hc).1 a hmem
  omega

theorem descending_of_contiguous (h : ∀ a ∈ l, 1 ≤ a.size)
    (hc : Contiguous 1 (dropUnits l).reverse) : Descending (dropUnits l) := by
  have h1 : ∀ a ∈ (dropUnits l).reverse, 1 ≤ a.size := fun a ha =>
    le_of_lt (size_of_dropUnits h a (mem_reverse.mp ha))
  exact pairwise_reverse.mp (contiguous_sorted zero_lt_one h1 hc).2

/-- The check as two runs of one loop: in the order of the axes and, if this fails and no axis
repeats, in that of the strides. -/
theorem canPickViewAsContiguous_eq (hrank : v.viewShape.length = v.viewStrides.length) :
    canPickViewAsContiguous v = (pairsLoop 1 (dropUnits v.axes).reverse).bind fun first =>
      if first then some true
      else if Repeats v.axes ∨ Descending (dropUnits v.axes) then some false
      else pairsLoop 1 (sortPairs (dropUnits v.axes)).reverse := by
  have hdrop : dropUnits v.axes.reverse = (dropUnits v.axes).reverse := filter_reverse
  unfold canPickViewAsContiguous buildStrideShapePairs
  rw [if_neg hrank.not_lt, shapeLoop_eq, hdrop]
  refine congrArg _ (funext fun first => ?_)
  cases first with
  | true => rfl
  | false =>
    rw [if_neg Bool.false_ne_true, if_neg Bool.false_ne_true]
    by_cases hr : Repeats v.axes
    · rw [if_pos (buildLoop_repeats.mpr hr), if_pos (.inl hr)]
    · obtain ⟨hp, ht⟩ := buildLoop_pairs (2 ^ 63 - 1) false [] hr
      have hmax : ∀ a ∈ dropUnits v.axes, a.stride ≤ 2 ^ 63 - 1 := by
        intro a ha
        have := (v.strides_int64 a.stride (View.mem_axes (mem_of_mem_filter ha)).2).2
        omega
      have hdesc := ht.trans (and_iff_right rfl |>.trans (and_iff_right hmax))
      rw [if_neg (mt buildLoop_repeats.mp hr), hp, nil_append]
      by_cases hd : Descending (dropUnits v.axes)
      · rw [hdesc.mpr hd, Bool.not_false, if_pos rfl, if_pos (.inr hd)]
      · rw [Bool.eq_true_of_not_eq_false (mt hdesc.mp hd), if_neg (not_or.mpr ⟨hr, hd⟩)]
        rfl

/-- Without an overflow the check tells whether the elements of the view are distinct and without
gaps. -/
theorem canPickViewAsContiguous_eq_some {b : Bool}
    (hrank : v.viewShape.length = v.viewStrides.length) (hdims : ∀ d ∈ v.viewShape, 1 ≤ d)
    (h : canPickViewAsContiguous v = some b) : b = true ↔ Bijective v.axes := by
  have h1 := View.axes_sizes hdims
  rw [canPickViewAsContiguous_eq hrank] at h
  obtain ⟨first, hfirst, h⟩ := bind_eq_some_iff.mp h
  have hc := pairsLoop_eq_some hfirst
  -- where the strides come in order, the first loop has the answer
  have hinner := bijective_iff_of_perm h1 (reverse_perm (dropUnits v.axes))
  split at h
  next htrue =>
    obtain rfl := some.inj h
    have hcont := hc.mp htrue
    have hd := descending_of_contiguous h1 hcont
    exact iff_of_true rfl ((hinner (pairwise_reverse.mpr hd)).mpr hcont)
  next hfalse =>
    have hnc := mt hc.mpr hfalse
    split at h
    next hcase =>
      obtain rfl := some.inj h
      refine iff_of_false Bool.false_ne_true ?_
      rcases hcase with hr | hd
      · exact hr.not_bijective h1
      · exact mt (hinner (pairwise_reverse.mpr hd)).mp hnc
    next =>
      rw [pairsLoop_eq_some h]
      exact (bijective_iff_of_perm h1 (sortPairs_perm _) (sortPairs_ascending _)).symm

/-- The loop over the axes in any order overflows just when they are overlong in that order. -/
theorem overlong_iff {l' : List Axis} (h : ∀ a ∈ l, 1 ≤ a.size) (hp : l'.Perm (dropUnits l)) :
    pairsLoop 1 l' = none ↔ Overlong l' := by
  have h1 : ∀ a ∈ l', 1 ≤ a.size := fun a ha =>
    le_of_lt (size_of_dropUnits h a (hp.mem_iff.mp ha))
  rw [pairsLoop_eq_none h1 (le_refl 1) (by decide)]
  simp only [one_mul, Overlong]

theorem canPickViewAsContiguous_eq_none (hrank : v.viewShape.length = v.viewStrides.length)
    (hdims : ∀ d ∈ v.viewShape, 1 ≤ d) :
    canPickViewAsContiguous v = none ↔ ¬ Short v.axes := by
  have h1 := View.axes_sizes hdims
  unfold Short
  rw [canPickViewAsContiguous_eq hrank, ← overlong_iff h1 (reverse_perm (dropUnits v.axes)),
    ← overlong_iff h1 (sortPairs_perm _)]
  cases hfirst : pairsLoop 1 (dropUnits v.axes).reverse with
  | none => exact iff_of_true rfl fun h => h.1 rfl
  | some first =>
    rw [bind_some]
    split
    next htrue =>
      have hd := descending_of_contiguous h1 ((pairsLoop_eq_some hfirst).mp htrue)
      exact iff_of_false nofun (not_not.mpr ⟨nofun, .inr (.inl hd)⟩)
    next =>
      split
      next hcase =>
        exact iff_of_false nofun (not_not.mpr ⟨nofun, or_assoc.mp (.inl hcase)⟩)
      next hcase =>
        obtain ⟨hr, hd⟩ := not_or.mp hcase
        simp only [reduceCtorEq, not_false_eq_true, hr, hd, false_or, true_and, not_not]

/-- The check is exact just when the running product of the dimensions that it computes stays in 64
bits. -/
theorem canPickViewAsContiguous_exact_iff (hrank : v.viewShape.length = v.viewStrides.length)
    (hdims : ∀ d ∈ v.viewShape, 1 ≤ d) :
    PickExact v ↔ Short v.axes := by
  constructor
  · intro ⟨b, h, _⟩
    by_contra hs
    rw [(canPickViewAsContiguous_eq_none hrank hdims).mpr hs] at h
    cases h
  · intro hs
    have hsome := mt (canPickViewAsContiguous_eq_none hrank hdims).mp (not_not.mpr hs)
    obtain ⟨b, h⟩ := Option.ne_none_iff_exists'.mp hsome
    exact ⟨b, h, canPickViewAsContiguous_eq_some hrank hdims h⟩

/-- The axes of sizes four and five have changed places. -/
def swappedView : View where
  viewShape := [5, 4, 6, 7]
  viewStrides := [42, 210, 7, 1]
  viewOffset := 0
  storageShape := [4, 5, 6, 7]
  shape_int64 := by decide
  strides_int64 := by decide
  offset_int64 := by decide

example : canPickViewAsContiguous swappedView = some true := by decide

theorem canPickViewAsContiguous_exact_swapped :
    swappedView.viewShape.length = swappedView.viewStrides.length ∧
      (∀ d ∈ swappedView.viewShape, 1 ≤ d) ∧ (PickExact swappedView ↔ Short swappedView.axes) :=
  ⟨rfl, by decide, canPickViewAsContiguous_exact_iff rfl (by decide)⟩

/-- An axis that repeats, with so many elements behind it that their number is zero modulo
`2 ^ 64`. -/
def wideView : View where
  viewShape := [2, 2 ^ 32, 2 ^ 32]
  viewStrides := [0, 2 ^ 32, 1]
  viewOffset := 0
  storageShape := [2 ^ 32, 2 ^ 32]
  shape_int64 := by decide
  strides_int64 := by decide
  offset_int64 := by decide

theorem canPickViewAsContiguous_wide :
    wideView.viewShape.length = wideView.viewStrides.length ∧ (∀ d ∈ wideView.viewShape, 1 ≤ d) ∧
      ¬ PickExact wideView := by
  refine ⟨rfl, by decide, ?_⟩
  intro ⟨b, h, _⟩
  have hnone : canPickViewAsContiguous wideView = none := by decide
  rw [hnone] at h
  cases h

/-! ## Views within their storage -/

/-- What `Validate` should tell: that every element of the view is one of the storage. -/
def ValidateExact (getShapeSize : List ℤ → ℤ) (v : View) : Prop :=
  ∃ b, validate getShapeSize v = some b ∧ (b = true ↔
    v.viewShape.length = v.viewStrides.length ∧ ∀ is, Inside v.axes is →
      0 ≤ v.viewOffset + offset v.axes is ∧ v.viewOffset + offset v.axes is < v.storageShape.prod)

/-- What the view reaches along each axis, and in all, are numbers of `int64_t`, and so is the
number behind the last element. -/
def Representable (v : View) : Prop :=
  (∀ a ∈ v.axes, IsInt64 (a.stride * (a.size - 1))) ∧
    -2 ^ 63 ≤ v.viewOffset + lowest v.axes ∧ v.viewOffset + highest v.axes + 1 < 2 ^ 63

theorem int64_eq_some {z p : ℤ} : int64 z = some p ↔ IsInt64 z ∧ p = z := by
  unfold int64
  split
  next h => exact ⟨fun he => ⟨h, (some.inj he).symm⟩, fun he => congrArg some he.2.symm⟩
  next h => exact ⟨(nomatch ·), fun he => absurd he.1 h⟩

theorem highest_nonneg : ∀ l : List Axis, 0 ≤ highest l
  | [] => le_refl 0
  | _ :: l => add_nonneg (le_max_left _ _) (highest_nonneg l)

theorem lowest_nonpos : ∀ l : List Axis, lowest l ≤ 0
  | [] => le_refl 0
  | _ :: l => add_nonpos (min_le_left _ _) (lowest_nonpos l)

/-- By induction on the axes: the loop adds the highest and the lowest offset, and fails if one of
them or a product is no `int64_t`. -/
theorem offsetLoop_eq_some : ∀ {l : List Axis} {hi lo : ℤ} {r : ℤ × ℤ},
    (∀ a ∈ l, IsInt64 (a.size - 1)) → IsInt64 hi → IsInt64 lo →
    (offsetLoop hi lo l = some r ↔ (∀ a ∈ l, IsInt64 (a.stride * (a.size - 1))) ∧
      hi + highest l < 2 ^ 63 ∧ -2 ^ 63 ≤ lo + lowest l ∧ r = (hi + highest l, lo + lowest l))
  | [], hi, lo, r, _, hhi, hlo => by
    rw [offsetLoop, show highest [] = 0 from rfl, show lowest [] = 0 from rfl, add_zero, add_zero]
    constructor
    · intro h
      exact ⟨fun _ h => (nomatch h), hhi.2, hlo.1, (some.inj h).symm⟩
    · rintro ⟨-, -, -, rfl⟩
      rfl
  | a :: l, hi, lo, r, hs, hhi, hlo => by
    have hsl : ∀ b ∈ l, IsInt64 (b.size - 1) := fun b hb => hs b (mem_cons_of_mem a hb)
    have hlast : int64 (a.size - 1) = some (a.size - 1) :=
      int64_eq_some.mpr ⟨hs a mem_cons_self, rfl⟩
    have h0 := highest_nonneg l
    have h0' := lowest_nonpos l
    have hmax : 0 ≤ max 0 (a.stride * (a.size - 1)) := le_max_left _ _
    have hmin : min 0 (a.stride * (a.size - 1)) ≤ 0 := min_le_left _ _
    rw [offsetLoop, hlast, highest_cons, lowest_cons, forall_mem_cons]
    simp only [bind_eq_bind, bind_some, bind_eq_some_iff, int64_eq_some, ← add_assoc]
    constructor
    · rintro ⟨_, ⟨hreach, rfl⟩, _, ⟨hup, rfl⟩, _, ⟨hdown, rfl⟩, h⟩
      obtain ⟨hrest, h1, h2, rfl⟩ := (offsetLoop_eq_some hsl hup hdown).mp h
      exact ⟨⟨hreach, hrest⟩, h1, h2, rfl⟩
    · rintro ⟨⟨hreach, hrest⟩, h1, h2, rfl⟩
      have hup : IsInt64 (hi + max 0 (a.stride * (a.size - 1))) := by
        unfold IsInt64 at hhi ⊢
        omega
      have hdown : IsInt64 (lo + min 0 (a.stride * (a.size - 1))) := by
        unfold IsInt64 at hlo ⊢
        omega
      exact ⟨_, ⟨hreach, rfl⟩, _, ⟨hup, rfl⟩, _, ⟨hdown, rfl⟩,
        (offsetLoop_eq_some hsl hup hdown).mpr ⟨hrest, h1, h2, rfl⟩⟩

variable {getShapeSize : List ℤ → ℤ}

/-- The validation answers just when all offsets can be represented, and then whether they are in
the storage. -/
theorem validate_eq_some {b : Bool} (hrank : v.viewShape.length = v.viewStrides.length)
    (hdims : ∀ d ∈ v.viewShape, 1 ≤ d) :
    validate getShapeSize v = some b ↔ Representable v ∧
      (b = true ↔ 0 ≤ v.viewOffset + lowest v.axes ∧
        v.viewOffset + highest v.axes < getShapeSize v.storageShape) := by
  have hsizes : ∀ a ∈ v.axes, IsInt64 (a.size - 1) := by
    intro a ha
    have h1 := View.axes_sizes hdims a ha
    have h2 := v.shape_int64 a.size (View.mem_axes ha).1
    unfold IsInt64 at h2 ⊢
    omega
  have h0 := highest_nonneg v.axes
  have hoff := v.offset_int64.1
  unfold validate Representable
  rw [if_neg (not_not.mpr hrank)]
  simp only [bind_eq_bind, bind_eq_some_iff, int64_eq_some,
    offsetLoop_eq_some hsizes v.offset_int64 v.offset_int64]
  constructor
  · rintro ⟨_, ⟨hreach, -, hlo, rfl⟩, _, ⟨hstop, rfl⟩, h⟩
    obtain rfl := some.inj h
    refine ⟨⟨hreach, hlo, hstop.2⟩, ?_⟩
    simp only [Bool.not_eq_true', Bool.or_eq_false_iff, decide_eq_false_iff_not, not_lt]
    omega
  · intro ⟨⟨hreach, hlo, hstop⟩, hb⟩
    refine ⟨_, ⟨hreach, by omega, hlo, rfl⟩, _, ⟨⟨by omega, hstop⟩, rfl⟩, congrArg some ?_⟩
    rw [Bool.eq_iff_iff, hb]
    simp only [Bool.not_eq_true', Bool.or_eq_false_iff, decide_eq_false_iff_not, not_lt]
    omega

/-- The validation accepts exactly the views inside their storage just when the offset of the last
element can be represented. -/
theorem validate_exact_iff (hsize : getShapeSize v.storageShape = v.storageShape.prod)
    (hdims : ∀ d ∈ v.viewShape, 1 ≤ d) :
    ValidateExact getShapeSize v ↔
      (v.viewShape.length = v.viewStrides.length → Representable v) := by
  unfold ValidateExact
  rw [inBounds_iff (View.axes_sizes hdims), ← hsize]
  by_cases hrank : v.viewShape.length = v.viewStrides.length
  · simp only [validate_eq_some hrank hdims, hrank, true_and, forall_const]
    constructor
    · intro ⟨b, ⟨hr, _⟩, _⟩
      exact hr
    · intro hr
      exact ⟨decide _, ⟨hr, decide_eq_true_iff⟩, decide_eq_true_iff⟩
  · have hfalse : validate getShapeSize v = some false := by
      rw [validate, if_pos hrank]
    rw [hfalse]
    exact iff_of_true ⟨false, rfl, (nomatch ·), fun h => absurd h.1 hrank⟩ fun h => absurd h hrank

theorem validate_exact_swapped :
    List.prod swappedView.storageShape = swappedView.storageShape.prod ∧
      (∀ d ∈ swappedView.viewShape, 1 ≤ d) ∧
      (ValidateExact List.prod swappedView ↔
        (swappedView.viewShape.length = swappedView.viewStrides.length →
          Representable swappedView)) :=
  ⟨rfl, by decide, validate_exact_iff rfl (by decide)⟩

/-- A stride of which four are zero modulo `2 ^ 64`. -/
def farView : View where
  viewShape := [5]
  viewStrides := [2 ^ 62]
  viewOffset := 0
  storageShape := [10]
  shape_int64 := by decide
  strides_int64 := by decide
  offset_int64 := by decide

theorem validate_far : List.prod farView.storageShape = farView.storageShape.prod ∧
    (∀ d ∈ farView.viewShape, 1 ≤ d) ∧ ¬ ValidateExact List.prod farView := by
  refine ⟨rfl, by decide, ?_⟩
  intro ⟨b, h, _⟩
  have hnone : validate List.prod farView = none := by decide
  rw [hnone] at h
  cases h

end OpBase.Shape
