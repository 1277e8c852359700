import OpBase.Shape.TensorView

/-!
# Contiguous layouts

`IsContiguous` of `tensor_view_utils.cpp` decides whether a shape with its strides is laid
out in row-major order, going from the last axis to the first and passing over axes of size
one; `ToContiguousStrides` of `shape_utils.cpp` makes the strides of such a layout. Both
multiply the sizes as `int64_t`, the test once more than it has use for: the product of all
axes is made, and nothing compared with it.

> `isContiguous_exact_iff`: the test is right but where contiguous axes at the end have
> `2 ^ 63` elements or more, and accepts the strides that were made for a shape if the
> product of all its sizes from any axis on is an `int64_t`.
-/

namespace OpBase.Shape

open OpBase.Lib.Strided

def axesOf (shape strides : List ℤ) : List Axis := List.zipWith Axis.mk shape strides

/-- `IsContiguous` of a shape and strides. -/
def isContiguous (shape strides : List ℤ) : Option Bool :=
  if shape.length < strides.length then none else shapeLoop 1 (axesOf shape strides).reverse

/-- `IsContiguous` of a tensor, which may be null. -/
def isContiguousTensor (isPrivateFormat : Bool) (getShapeSize : List ℤ → ℤ) :
    Option View → Option Bool
  | none => some true
  | some v =>
    if isPrivateFormat then some true
    else if getShapeSize v.viewShape = 0 ∨ getShapeSize v.viewShape = 1 then some true
    else isContiguous v.viewShape v.viewStrides

/-- The loop of `ToContiguousStrides`, from the last axis but one to the first; `dims` are the
sizes of the axes behind, the nearest first. -/
def stridesLoop (next : ℤ) (strides : List ℤ) : List ℤ → Option (List ℤ)
  | [] => some strides
  | dim :: dims => do
    let stride ← int64 (dim * next)
    stridesLoop stride (stride :: strides) dims

def toContiguousStrides (shape : List ℤ) : Option (List ℤ) :=
  if shape = [] then some [] else stridesLoop 1 [1] shape.tail.reverse

/-! ## The test -/

/-- What `IsContiguous` should tell. -/
def ContiguousExact (shape strides : List ℤ) : Prop :=
  ∃ b, isContiguous shape strides = some b ∧ (b = true ↔
    ∀ is, Inside (axesOf shape strides) is → offset (axesOf shape strides) is = rowMajor shape is)

theorem map_size_axesOf : ∀ {shape strides : List ℤ}, shape.length = strides.length →
    (axesOf shape strides).map Axis.size = shape
  | [], _, _ => rfl
  | _ :: _, [], h => absurd h (Nat.succ_ne_zero _)
  | d :: _, _ :: _, h => congrArg (d :: ·) (map_size_axesOf (Nat.succ.inj h))

variable {shape strides : List ℤ}

theorem axesOf_sizes (h : ∀ d ∈ shape, 1 ≤ d) : ∀ a ∈ axesOf shape strides, 1 ≤ a.size := by
  intro a ha
  obtain ⟨k, hk, rfl⟩ := List.getElem_of_mem ha
  unfold axesOf at hk ⊢
  rw [List.getElem_zipWith]
  exact h _ (List.getElem_mem _)

section

variable (hlen : shape.length = strides.length)
include hlen

theorem count_axesOf :
    count (axesOf shape strides) = shape.prod := by
  rw [count, map_size_axesOf hlen]

theorem isContiguous_eq :
    isContiguous shape strides = pairsLoop 1 (dropUnits (axesOf shape strides)).reverse := by
  have hdrop : dropUnits (axesOf shape strides).reverse =
      (dropUnits (axesOf shape strides)).reverse := List.filter_reverse
  unfold isContiguous
  rw [if_neg hlen.not_lt, shapeLoop_eq, hdrop]

theorem contiguousExact_iff (hdims : ∀ d ∈ shape, 1 ≤ d) :
    ContiguousExact shape strides ↔ ¬ Overlong (dropUnits (axesOf shape strides)).reverse := by
  have h1 : ∀ a ∈ axesOf shape strides, 1 ≤ a.size := axesOf_sizes hdims
  have hrow := offset_eq_rowMajor_iff h1
  rw [map_size_axesOf hlen, rowMajorStrides_iff] at hrow
  unfold ContiguousExact
  rw [isContiguous_eq hlen, hrow, ← overlong_iff h1 (List.reverse_perm _)]
  constructor
  · intro ⟨b, hb, _⟩ hnone
    rw [hb] at hnone
    cases hnone
  · intro hsome
    obtain ⟨b, hb⟩ := Option.ne_none_iff_exists'.mp hsome
    exact ⟨b, hb, pairsLoop_eq_some hb⟩

end

theorem dropUnits_eq_nil {l : List Axis} (h : ∀ a ∈ l, 1 ≤ a.size) (hone : count l = 1) :
    dropUnits l = [] := by
  have h2 := size_of_dropUnits h
  have hsame := (dropUnits_same l).2
  cases hl : dropUnits l with
  | nil => rfl
  | cons a rest =>
    rw [hl] at h2 hsame
    have ha := h2 a List.mem_cons_self
    have hrest := count_pos fun b hb => le_of_lt (h2 b (List.mem_cons_of_mem a hb))
    rw [count_cons, hone] at hsame
    nlinarith

theorem isContiguousTensor_eq {getShapeSize : List ℤ → ℤ} {v : View}
    (hsize : getShapeSize v.viewShape = v.viewShape.prod)
    (hlen : v.viewShape.length = v.viewStrides.length) (hdims : ∀ d ∈ v.viewShape, 1 ≤ d) :
    isContiguousTensor false getShapeSize (some v) = isContiguous v.viewShape v.viewStrides := by
  have h1 : ∀ a ∈ axesOf v.viewShape v.viewStrides, 1 ≤ a.size := axesOf_sizes hdims
  have hcount := count_axesOf hlen
  have hpos := count_pos h1
  show (if false = true then some true
    else if getShapeSize v.viewShape = 0 ∨ getShapeSize v.viewShape = 1 then some true
    else isContiguous v.viewShape v.viewStrides) = _
  rw [if_neg Bool.false_ne_true, hsize, ← hcount]
  split
  next hone =>
    rw [isContiguous_eq hlen, dropUnits_eq_nil h1 (hone.resolve_left hpos.ne')]
    rfl
  next => rfl

/-! ## The strides that are made -/

/-- The product of all sizes from any axis on is an `int64_t`. -/
def AllInt64 (shape : List ℤ) : Prop := ∀ n, IsInt64 (shape.drop n).prod

/-- The strides of a shape in row-major order. -/
def rowStrides : List ℤ → List ℤ
  | [] => []
  | _ :: shape => shape.prod :: rowStrides shape

theorem allInt64_nil : AllInt64 [] := by
  intro n
  rw [List.drop_nil]
  decide

theorem allInt64_cons {d : ℤ} {shape : List ℤ} :
    AllInt64 (d :: shape) ↔ IsInt64 (d * shape.prod) ∧ AllInt64 shape := by
  constructor
  · intro h
    refine ⟨?_, fun n => h (n + 1)⟩
    rw [← List.prod_cons]
    exact h 0
  · intro ⟨hd, h⟩ n
    cases n with
    | zero =>
      rw [List.drop_zero, List.prod_cons]
      exact hd
    | succ n => exact h n

theorem int64_of {z : ℤ} (h : IsInt64 z) : int64 z = some z := if_pos h

theorem int64_of_not {z : ℤ} (h : ¬ IsInt64 z) : int64 z = none := if_neg h

/-- Behind the axes of `shape` the loop has their strides and goes on with their product. -/
theorem stridesLoop_reverse (shape : List ℤ) : ∀ dims,
    (AllInt64 shape → stridesLoop 1 [1] (shape.reverse ++ dims) =
      stridesLoop shape.prod (shape.prod :: rowStrides shape) dims) ∧
    (¬ AllInt64 shape → stridesLoop 1 [1] (shape.reverse ++ dims) = none) := by
  induction shape with
  | nil => exact fun dims => ⟨fun _ => rfl, fun h => absurd allInt64_nil h⟩
  | cons d shape ih =>
    intro dims
    rw [List.reverse_cons, List.append_assoc, List.singleton_append, allInt64_cons]
    obtain ⟨hall, hnot⟩ := ih (d :: dims)
    constructor
    · intro ⟨hd, hshape⟩
      rw [hall hshape, stridesLoop, int64_of hd]
      rfl
    · intro h
      by_cases hshape : AllInt64 shape
      · have hd : ¬ IsInt64 (d * shape.prod) := fun hd => h ⟨hd, hshape⟩
        rw [hall hshape, stridesLoop, int64_of_not hd]
        rfl
      · exact hnot hshape

theorem toContiguousStrides_eq_some :
    toContiguousStrides shape = some strides ↔
      AllInt64 shape.tail ∧ strides = rowStrides shape := by
  unfold toContiguousStrides
  cases shape with
  | nil =>
    rw [if_pos rfl]
    exact ⟨fun h => ⟨allInt64_nil, (Option.some.inj h).symm⟩, fun h => congrArg some h.2.symm⟩
  | cons d shape =>
    obtain ⟨hall, hnot⟩ := stridesLoop_reverse shape []
    rw [List.append_nil] at hall hnot
    rw [if_neg (List.cons_ne_nil d shape), List.tail_cons]
    by_cases hshape : AllInt64 shape
    · rw [hall hshape]
      exact ⟨fun h => ⟨hshape, (Option.some.inj h).symm⟩, fun h => congrArg some h.2.symm⟩
    · rw [hnot hshape]
      exact ⟨(nomatch ·), fun h => absurd h.1 hshape⟩

/-- The test finds the row-major strides of the axes of `shape` in place, and goes on. -/
theorem shapeLoop_reverse (shape : List ℤ) : ∀ rest,
    (AllInt64 shape → shapeLoop 1 ((axesOf shape (rowStrides shape)).reverse ++ rest) =
      shapeLoop shape.prod rest) ∧
    (¬ AllInt64 shape →
      shapeLoop 1 ((axesOf shape (rowStrides shape)).reverse ++ rest) = none) := by
  induction shape with
  | nil => exact fun rest => ⟨fun _ => rfl, fun h => absurd allInt64_nil h⟩
  | cons d shape ih =>
    intro rest
    have hcons : (axesOf (d :: shape) (rowStrides (d :: shape))).reverse ++ rest =
        (axesOf shape (rowStrides shape)).reverse ++ ⟨d, shape.prod⟩ :: rest := by
      show (⟨d, shape.prod⟩ :: axesOf shape (rowStrides shape)).reverse ++ rest = _
      rw [List.reverse_cons, List.append_assoc, List.singleton_append]
    obtain ⟨hall, hnot⟩ := ih (⟨d, shape.prod⟩ :: rest)
    rw [hcons, allInt64_cons, List.prod_cons]
    by_cases hshape : AllInt64 shape
    · rw [hall hshape, shapeLoop]
      by_cases h1 : d = 1
      · rw [if_pos h1, h1, one_mul]
        exact ⟨fun _ => rfl, fun h => absurd ⟨hshape 0, hshape⟩ h⟩
      · rw [if_neg h1, if_neg (not_not.mpr rfl)]
        rw [mul_comm shape.prod d]
        constructor
        · intro h
          rw [int64_of h.1]
          rfl
        · intro h
          rw [int64_of_not fun hd => h ⟨hd, hshape⟩]
          rfl
    · rw [hnot hshape]
      exact ⟨fun h => absurd h.2 hshape, fun _ => rfl⟩

theorem length_rowStrides : ∀ shape : List ℤ, (rowStrides shape).length = shape.length
  | [] => rfl
  | _ :: shape => congrArg (· + 1) (length_rowStrides shape)

/-- `IsContiguous` with the strides that `ToContiguousStrides` makes. -/
def generatedIsContiguous (shape : List ℤ) : Option Bool := do
  let strides ← toContiguousStrides shape
  isContiguous shape strides

theorem generatedIsContiguous_iff (shape : List ℤ) :
    generatedIsContiguous shape = some true ↔ AllInt64 shape := by
  obtain ⟨hall, hnot⟩ := shapeLoop_reverse shape []
  rw [List.append_nil] at hall hnot
  have htest : isContiguous shape (rowStrides shape) =
      shapeLoop 1 (axesOf shape (rowStrides shape)).reverse :=
    if_neg (length_rowStrides shape).not_gt
  unfold generatedIsContiguous
  rw [Option.bind_eq_bind, Option.bind_eq_some_iff]
  constructor
  · intro ⟨strides, hstrides, h⟩
    obtain ⟨-, rfl⟩ := toContiguousStrides_eq_some.mp hstrides
    by_contra hno
    rw [htest, hnot hno] at h
    cases h
  · intro h
    have htail : AllInt64 shape.tail := fun n => by
      rw [List.drop_tail]
      exact h (n + 1)
    refine ⟨_, toContiguousStrides_eq_some.mpr ⟨htail, rfl⟩, ?_⟩
    rw [htest, hall h]
    rfl

/-- **The test and the strides agree with row-major order** as far as the products they make
are numbers of `int64_t`. -/
theorem isContiguous_exact_iff (shape strides : List ℤ) :
    (shape.length = strides.length → (∀ d ∈ shape, 1 ≤ d) →
      (ContiguousExact shape strides ↔
        ¬ Overlong (dropUnits (axesOf shape strides)).reverse)) ∧
    (generatedIsContiguous shape = some true ↔ AllInt64 shape) :=
  ⟨contiguousExact_iff, generatedIsContiguous_iff shape⟩

/-- As many elements behind the first axis as make zero modulo `2 ^ 64`, and more. -/
theorem isContiguous_wide :
    ¬ ContiguousExact [2, 2 ^ 32, 2 ^ 32] [0, 2 ^ 32, 1] ∧
      generatedIsContiguous [2 ^ 32, 2 ^ 32, 2] ≠ some true := by
  have hnone : isContiguous [2, 2 ^ 32, 2 ^ 32] [0, 2 ^ 32, 1] = none := by decide
  refine ⟨fun ⟨b, hb, _⟩ => ?_, by decide⟩
  rw [hnone] at hb
  cases hb

end OpBase.Shape
