import OpBase.Base.DataType
import OpBase.Shape.Broadcast

/-!
# Shapes of reductions

`InferShape4Reduce` (`infershape_reduce_util.cpp`) infers what a reduction leaves of a shape.
With `keepDims` the axes are gone through once, and each one's dimension becomes one. Without
it the axes are gone through anew for every dimension, and only as far as one of them names
it. Both check an axis when they come to it, so that without `keepDims` an axis out of range
is found only if some dimension has not been named by then.

> `inferShape4Reduce_agrees_iff`: the two ways agree if all axes are in range, or a dimension
> is not named in front of the first one that is not; and if the number of axes fits the
> `int32_t` that holds it, or the others name nothing new.
-/

namespace OpBase.Shape

open List

/-- `CheckAxisBounds`. -/
def checkAxisBounds (dimNum axis : ℤ) : Bool :=
  if dimNum = 0 then axis = 0 else dimNum * -1 ≤ axis ∧ axis ≤ dimNum - 1

/-- A negative axis counts from behind. -/
def axisDim (dimNum axis : ℤ) : ℤ := if axis < 0 then axis + dimNum else axis

/-- The loop of `ReduceDimsWithKeepDims`. -/
def keepDimsLoop (dimNum : ℤ) (isScalar : Bool) (out : List ℤ) : List ℤ → Option (List ℤ)
  | [] => some out
  | axis :: rest =>
    if !checkAxisBounds dimNum axis then none
    else if isScalar then keepDimsLoop dimNum isScalar out rest
    else keepDimsLoop dimNum isScalar (out.set (axisDim dimNum axis).toNat 1) rest

def reduceDimsWithKeepDims (xShape axesDims : List ℤ) : Option (List ℤ) :=
  let isScalar := xShape.length = 0
  let dimNum : ℤ := if isScalar then 1 else xShape.length
  keepDimsLoop dimNum isScalar xShape axesDims

/-- The loop over the axes for dimension `j`, which leaves `reduceFlag`. -/
def reduceFlag (dimNum j : ℤ) : List ℤ → Option Bool
  | [] => some false
  | axis :: rest =>
    if !checkAxisBounds dimNum axis then none
    else if axisDim dimNum axis = j then some true
    else reduceFlag dimNum j rest

/-- The loop of `ReduceDimsWithoutKeepDims` over the dimensions, from `j` on. -/
def withoutKeepDimsLoop (dimNum : ℤ) (axesDims : List ℤ) (j : ℕ) (out : List ℤ) :
    List ℤ → Option (List ℤ)
  | [] => some out
  | dim :: rest => do
    let flag ← reduceFlag dimNum j axesDims
    withoutKeepDimsLoop dimNum axesDims (j + 1) (if flag then out else out ++ [dim]) rest

def reduceDimsWithoutKeepDims (xShape axesDims : List ℤ) : Option (List ℤ) :=
  withoutKeepDimsLoop xShape.length axesDims 0 [] xShape

/-- The axes are the elements of a tensor of type `dtype`. -/
def inferShape4Reduce (inShape : List ℤ) (dtype : DataType) (axes : List ℤ) (keepDims : Bool) :
    Option (List ℤ) :=
  let axesSize := asInt32 axes.length
  if axesSize < 0 then none
  else if axesSize = 0 then some inShape
  else if dtype ≠ .DT_INT32 ∧ dtype ≠ .DT_INT64 then none
  else
    let axesDims := axes.take axesSize.toNat
    if keepDims then reduceDimsWithKeepDims inShape axesDims
    else reduceDimsWithoutKeepDims inShape axesDims

/-! ## Dimensions that axes name -/

/-- Some axis names dimension `j`. -/
def Named (rank : ℕ) (axes : List ℤ) (j : ℕ) : Prop := ∃ axis ∈ axes, axisDim rank axis = j

instance (rank : ℕ) (axes : List ℤ) (j : ℕ) : Decidable (Named rank axes j) :=
  inferInstanceAs (Decidable (∃ axis ∈ axes, _))

/-- A scalar is taken for a shape with one axis. -/
def InBounds (rank : ℕ) (axis : ℤ) : Prop := -max rank 1 ≤ axis ∧ axis < max rank 1

instance (rank : ℕ) (axis : ℤ) : Decidable (InBounds rank axis) :=
  inferInstanceAs (Decidable (_ ∧ _))

/-- What is left of the dimensions from number `j` on without those that satisfy `p`. -/
def removeDims (p : ℕ → Prop) [DecidablePred p] : ℕ → List ℤ → List ℤ
  | _, [] => []
  | j, dim :: rest => if p j then removeDims p (j + 1) rest else dim :: removeDims p (j + 1) rest

/-- These dimensions with ones in place of those that satisfy `p`. -/
def setOnes (p : ℕ → Prop) [DecidablePred p] : ℕ → List ℤ → List ℤ
  | _, [] => []
  | j, dim :: rest => (if p j then 1 else dim) :: setOnes p (j + 1) rest

section
variable {p q : ℕ → Prop} [DecidablePred p] [DecidablePred q]

theorem removeDims_setOnes (hpq : ∀ j, p j → q j) : ∀ (j : ℕ) (dims : List ℤ),
    removeDims q j (setOnes p j dims) = removeDims q j dims
  | _, [] => rfl
  | j, dim :: rest => by
    rw [setOnes, removeDims, removeDims, removeDims_setOnes hpq (j + 1) rest]
    by_cases hq : q j
    · rw [if_pos hq, if_pos hq]
    · rw [if_neg hq, if_neg hq, if_neg (mt (hpq j) hq)]

theorem removeDims_length_le (hpq : ∀ j, p j → q j) : ∀ (j : ℕ) (dims : List ℤ),
    (removeDims q j dims).length ≤ (removeDims p j dims).length
  | _, [] => Nat.le_refl 0
  | j, dim :: rest => by
    have ih := removeDims_length_le hpq (j + 1) rest
    rw [removeDims, removeDims]
    by_cases hp : p j
    · rwa [if_pos hp, if_pos (hpq j hp)]
    · rw [if_neg hp]
      split
      · exact Nat.le_succ_of_le ih
      · exact Nat.succ_le_succ ih

theorem forall_lt_succ {r : ℕ → Prop} {j n : ℕ} :
    (∀ i < n + 1, r (j + i)) ↔ r j ∧ ∀ i < n, r (j + 1 + i) := by
  constructor
  · intro h
    refine ⟨h 0 (Nat.succ_pos n), fun i hi => ?_⟩
    rw [Nat.add_right_comm, Nat.add_assoc]
    exact h (i + 1) (Nat.succ_lt_succ hi)
  · rintro ⟨h0, h⟩ (_ | i) hi
    · exact h0
    · rw [← Nat.add_assoc, Nat.add_right_comm]
      exact h i (Nat.lt_of_succ_lt_succ hi)

theorem removeDims_eq_iff (hpq : ∀ j, p j → q j) : ∀ (j : ℕ) (dims : List ℤ),
    removeDims p j dims = removeDims q j dims ↔ ∀ i < dims.length, q (j + i) → p (j + i)
  | _, [] => ⟨fun _ _ h => absurd h (Nat.not_lt_zero _), fun _ => rfl⟩
  | j, dim :: rest => by
    have hle := removeDims_length_le hpq (j + 1) rest
    have hsplit : (∀ i < (dim :: rest).length, q (j + i) → p (j + i)) ↔
        (q j → p j) ∧ ∀ i < rest.length, q (j + 1 + i) → p (j + 1 + i) :=
      forall_lt_succ (r := fun i => q i → p i)
    rw [hsplit, ← removeDims_eq_iff hpq (j + 1) rest, removeDims, removeDims]
    by_cases hp : p j
    · rw [if_pos hp, if_pos (hpq j hp)]
      exact ⟨fun h => ⟨fun _ => hp, h⟩, fun h => h.2⟩
    · rw [if_neg hp]
      by_cases hq : q j
      · rw [if_pos hq]
        refine ⟨fun h => ?_, fun h => absurd (h.1 hq) hp⟩
        have := congrArg List.length h
        rw [length_cons] at this
        omega
      · rw [if_neg hq]
        exact ⟨fun h => ⟨fun h' => absurd h' hq, (List.cons.inj h).2⟩, fun h => by rw [h.2]⟩

theorem setOnes_congr {m : ℕ} (h : ∀ i, m ≤ i → (p i ↔ q i)) : ∀ (dims : List ℤ) {j : ℕ}, m ≤ j →
    setOnes p j dims = setOnes q j dims
  | [], _, _ => rfl
  | dim :: rest, j, hj => by
    rw [setOnes, setOnes, if_congr (h j hj) rfl rfl, setOnes_congr h rest (Nat.le_succ_of_le hj)]

theorem setOnes_set : ∀ {j k : ℕ} {dims : List ℤ}, (∀ i, q i ↔ i = j + k ∨ p i) →
    setOnes p j (dims.set k 1) = setOnes q j dims
  | _, _, [], _ => rfl
  | j, 0, dim :: rest, h => by
    have hsame : ∀ i, j + 1 ≤ i → (p i ↔ q i) := by
      intro i hi
      rw [h i, or_iff_right (by omega)]
    rw [set_cons_zero, setOnes, setOnes, if_pos ((h j).mpr (.inl rfl)), ite_self,
      setOnes_congr hsame rest (Nat.le_refl _)]
  | j, k + 1, dim :: rest, h => by
    have hj : p j ↔ q j := by rw [h j, or_iff_right (by omega)]
    rw [set_cons_succ, setOnes, setOnes, if_congr hj rfl rfl, setOnes_set fun i => ?_]
    rw [h i, Nat.add_right_comm, Nat.add_assoc]

end

/-! ## The loops -/

variable {rank : ℕ}

theorem checkAxisBounds_iff {axis : ℤ} {dimNum : ℤ} (h : dimNum = max rank 1) :
    checkAxisBounds dimNum axis = true ↔ InBounds rank axis := by
  unfold checkAxisBounds InBounds
  rw [if_neg (by omega), decide_eq_true_iff]
  omega

theorem axisDim_toNat {axis : ℤ} (hr : 0 < rank) (h : InBounds rank axis) :
    ((axisDim rank axis).toNat : ℤ) = axisDim rank axis := by
  unfold InBounds at h
  unfold axisDim
  omega

theorem keepDimsLoop_scalar (out : List ℤ) : ∀ axes : List ℤ,
    keepDimsLoop 1 true out axes = if ∀ a ∈ axes, InBounds 0 a then some out else none
  | [] => rfl
  | a :: rest => by
    have hc : checkAxisBounds 1 a = true ↔ InBounds 0 a := checkAxisBounds_iff rfl
    rw [keepDimsLoop, keepDimsLoop_scalar out rest]
    simp only [forall_mem_cons, ite_and]
    by_cases ha : InBounds 0 a
    · rw [hc.mpr ha, if_pos ha]
      rfl
    · rw [Bool.eq_false_iff.mpr (mt hc.mp ha), if_neg ha]
      rfl

theorem not_named_nil (rank j : ℕ) : ¬ Named rank [] j := fun ⟨_, h, _⟩ => (nomatch h)

theorem named_cons {j : ℕ} {a : ℤ} {rest : List ℤ} :
    Named rank (a :: rest) j ↔ axisDim rank a = j ∨ Named rank rest j :=
  exists_mem_cons_iff ..

theorem setOnes_none (rank : ℕ) : ∀ (j : ℕ) (dims : List ℤ), setOnes (Named rank []) j dims = dims
  | _, [] => rfl
  | j, dim :: rest => by rw [setOnes, setOnes_none rank (j + 1) rest, if_neg (not_named_nil rank j)]

theorem keepDimsLoop_eq (hr : 0 < rank) : ∀ (axes out : List ℤ),
    keepDimsLoop rank false out axes =
      if ∀ a ∈ axes, InBounds rank a then some (setOnes (Named rank axes) 0 out) else none
  | [], out => by
    rw [setOnes_none, if_pos fun _ h => (nomatch h)]
    rfl
  | a :: rest, out => by
    have hc : checkAxisBounds rank a = true ↔ InBounds rank a := checkAxisBounds_iff (by omega)
    rw [keepDimsLoop, if_neg Bool.false_ne_true, keepDimsLoop_eq hr rest]
    simp only [forall_mem_cons, ite_and]
    by_cases ha : InBounds rank a
    · have hd := axisDim_toNat hr ha
      have hset : setOnes (Named rank rest) 0 (out.set (axisDim rank a).toNat 1) =
          setOnes (Named rank (a :: rest)) 0 out := by
        refine setOnes_set fun i => ?_
        rw [named_cons]
        refine or_congr_left ?_
        omega
      rw [hc.mpr ha, if_pos ha, hset]
      rfl
    · rw [Bool.eq_false_iff.mpr (mt hc.mp ha), if_neg ha]
      rfl

theorem reduceDimsWithKeepDims_eq (xShape axes : List ℤ) :
    reduceDimsWithKeepDims xShape axes = if ∀ a ∈ axes, InBounds xShape.length a then
      some (setOnes (Named xShape.length axes) 0 xShape) else none := by
  unfold reduceDimsWithKeepDims
  cases xShape with
  | nil => exact keepDimsLoop_scalar [] axes
  | cons dim rest => exact keepDimsLoop_eq (Nat.succ_pos _) axes (dim :: rest)

/-- The axes in front of the first one that is out of range. -/
def firstInBounds (rank : ℕ) : List ℤ → List ℤ
  | [] => []
  | a :: rest => if InBounds rank a then a :: firstInBounds rank rest else []

theorem firstInBounds_eq : ∀ {axes : List ℤ}, (∀ a ∈ axes, InBounds rank a) →
    firstInBounds rank axes = axes
  | [], _ => rfl
  | a :: rest, h => by
    rw [forall_mem_cons] at h
    rw [firstInBounds, if_pos h.1, firstInBounds_eq h.2]

theorem reduceFlag_eq (hr : 0 < rank) (j : ℕ) : ∀ axes : List ℤ,
    reduceFlag rank j axes = if Named rank (firstInBounds rank axes) j then some true
      else if ∀ a ∈ axes, InBounds rank a then some false else none
  | [] => by
    rw [firstInBounds, if_neg (not_named_nil rank j), if_pos fun _ h => (nomatch h)]
    rfl
  | a :: rest => by
    have hc : checkAxisBounds rank a = true ↔ InBounds rank a := checkAxisBounds_iff (by omega)
    rw [reduceFlag, reduceFlag_eq hr j rest, firstInBounds]
    simp only [forall_mem_cons, ite_and]
    by_cases ha : InBounds rank a
    · rw [hc.mpr ha, if_pos ha, if_pos ha]
      simp only [named_cons, ite_or]
      rfl
    · rw [Bool.eq_false_iff.mpr (mt hc.mp ha), if_neg ha, if_neg ha, if_neg (not_named_nil rank j)]
      rfl

/-- By induction on the axes left: the loop drops the named ones, and fails at one it has to ask an
axis out of bounds about. -/
theorem withoutKeepDimsLoop_eq (hr : 0 < rank) (axes : List ℤ) :
    ∀ (j : ℕ) (out dims : List ℤ), withoutKeepDimsLoop rank axes j out dims =
      if (∀ a ∈ axes, InBounds rank a) ∨
          ∀ i < dims.length, Named rank (firstInBounds rank axes) (j + i) then
        some (out ++ removeDims (Named rank (firstInBounds rank axes)) j dims)
      else none
  | j, out, [] => by
    rw [if_pos (.inr fun _ h => absurd h (Nat.not_lt_zero _)), removeDims, append_nil]
    rfl
  | j, out, dim :: rest => by
    have hrest : (∀ i < (dim :: rest).length, Named rank (firstInBounds rank axes) (j + i)) ↔
        Named rank (firstInBounds rank axes) j ∧
          ∀ i < rest.length, Named rank (firstInBounds rank axes) (j + 1 + i) := forall_lt_succ
    rw [withoutKeepDimsLoop, reduceFlag_eq hr, removeDims]
    simp only [hrest]
    by_cases hn : Named rank (firstInBounds rank axes) j
    · simp only [Option.bind_eq_bind, Option.bind_some, if_true, hn, true_and]
      exact withoutKeepDimsLoop_eq hr axes (j + 1) out rest
    · rw [if_neg hn, if_neg hn]
      by_cases ha : ∀ a ∈ axes, InBounds rank a
      · rw [if_pos ha, if_pos (.inl ha), Option.bind_eq_bind, Option.bind_some,
          if_neg Bool.false_ne_true, withoutKeepDimsLoop_eq hr axes (j + 1) _ rest,
          if_pos (.inl ha), append_assoc, singleton_append]
      · rw [if_neg ha, if_neg (not_or.mpr ⟨ha, fun h => hn h.1⟩)]
        rfl

theorem reduceDimsWithoutKeepDims_eq (xShape axes : List ℤ) :
    reduceDimsWithoutKeepDims xShape axes =
      if (∀ a ∈ axes, InBounds xShape.length a) ∨
          ∀ i < xShape.length, Named xShape.length (firstInBounds xShape.length axes) i then
        some (removeDims (Named xShape.length (firstInBounds xShape.length axes)) 0 xShape)
      else none := by
  unfold reduceDimsWithoutKeepDims
  cases xShape with
  | nil =>
    rw [if_pos (.inr fun _ h => absurd h (Nat.not_lt_zero _))]
    rfl
  | cons dim rest =>
    have hr : 0 < (dim :: rest).length := Nat.succ_pos _
    rw [withoutKeepDimsLoop_eq hr, nil_append]
    simp only [Nat.zero_add]

/-! ## The two ways -/

/-- The axes that are counted by an `int32_t`. -/
def usedAxes (axes : List ℤ) : List ℤ := axes.take (asInt32 axes.length).toNat

/-- Without `keepDims` inference succeeds just if it does with it, and what is left then are
the dimensions that no axis names. -/
def Agrees (inShape : List ℤ) (dtype : DataType) (axes : List ℤ) : Prop :=
  ((inferShape4Reduce inShape dtype axes false).isSome ↔
      (inferShape4Reduce inShape dtype axes true).isSome) ∧
    ∀ out kept, inferShape4Reduce inShape dtype axes false = some out →
      inferShape4Reduce inShape dtype axes true = some kept →
      out = removeDims (Named inShape.length axes) 0 kept

/-- Neither way succeeds because of the number of axes or their type, or all the axes that are
counted are in range and the others name nothing new, or some dimension is not named in front
of the first axis out of range. -/
def AxesFit (rank : ℕ) (dtype : DataType) (axes : List ℤ) : Prop :=
  (asInt32 axes.length < 0 ∨ asInt32 axes.length ≠ 0 ∧ dtype ≠ .DT_INT32 ∧ dtype ≠ .DT_INT64) ∨
    (∀ a ∈ usedAxes axes, InBounds rank a) ∧
      (∀ j < rank, Named rank axes j → Named rank (usedAxes axes) j) ∨
    (¬ ∀ a ∈ usedAxes axes, InBounds rank a) ∧
      ¬ ∀ j < rank, Named rank (firstInBounds rank (usedAxes axes)) j

theorem removeDims_none (rank : ℕ) : ∀ (j : ℕ) (dims : List ℤ),
    removeDims (Named rank []) j dims = dims
  | _, [] => rfl
  | j, dim :: rest => by
    rw [removeDims, removeDims_none rank (j + 1) rest, if_neg (not_named_nil rank j)]

variable {dtype : DataType}

theorem inferShape4Reduce_eq (inShape : List ℤ) {axes : List ℤ} (hsize : ¬ asInt32 axes.length < 0)
    (htype : ¬ (asInt32 axes.length ≠ 0 ∧ dtype ≠ .DT_INT32 ∧ dtype ≠ .DT_INT64)) :
    inferShape4Reduce inShape dtype axes true = reduceDimsWithKeepDims inShape (usedAxes axes) ∧
      inferShape4Reduce inShape dtype axes false =
        reduceDimsWithoutKeepDims inShape (usedAxes axes) := by
  unfold inferShape4Reduce
  dsimp only
  rw [if_neg hsize, if_neg hsize]
  by_cases h0 : asInt32 axes.length = 0
  · have hused : usedAxes axes = [] := by
      unfold usedAxes
      rw [h0]
      rfl
    rw [if_pos h0, if_pos h0, hused, reduceDimsWithKeepDims_eq, reduceDimsWithoutKeepDims_eq,
      if_pos fun _ h => (nomatch h), if_pos (.inl fun _ h => (nomatch h)), setOnes_none,
      firstInBounds, removeDims_none]
    exact ⟨rfl, rfl⟩
  · have ht : ¬ (dtype ≠ .DT_INT32 ∧ dtype ≠ .DT_INT64) := fun h => htype ⟨h0, h⟩
    rw [if_neg h0, if_neg h0, if_neg ht, if_neg ht, if_pos rfl, if_neg Bool.false_ne_true]
    exact ⟨rfl, rfl⟩

theorem inferShape4Reduce_fails (inShape : List ℤ) {axes : List ℤ}
    (h : asInt32 axes.length < 0 ∨ asInt32 axes.length ≠ 0 ∧ dtype ≠ .DT_INT32 ∧ dtype ≠ .DT_INT64)
    (keepDims : Bool) :
    inferShape4Reduce inShape dtype axes keepDims = none := by
  unfold inferShape4Reduce
  dsimp only
  rcases h with h | ⟨h, ht⟩
  · rw [if_pos h]
  · by_cases hn : asInt32 axes.length < 0
    · rw [if_pos hn]
    · rw [if_neg hn, if_neg h, if_pos ht]

/-- The inference gives the shape of the reduction just when the axes and their number fit the types
they are read with. -/
theorem inferShape4Reduce_agrees_iff (inShape : List ℤ) (dtype : DataType) (axes : List ℤ) :
    Agrees inShape dtype axes ↔ AxesFit inShape.length dtype axes := by
  unfold Agrees AxesFit
  by_cases hfail : asInt32 axes.length < 0 ∨
      asInt32 axes.length ≠ 0 ∧ dtype ≠ .DT_INT32 ∧ dtype ≠ .DT_INT64
  · rw [inferShape4Reduce_fails inShape hfail, inferShape4Reduce_fails inShape hfail]
    exact iff_of_true ⟨Iff.rfl, fun _ _ h => (nomatch h)⟩ (.inl hfail)
  · obtain ⟨hsize, htype⟩ := not_or.mp hfail
    obtain ⟨hkeep, hwithout⟩ := inferShape4Reduce_eq inShape hsize htype
    rw [hkeep, hwithout, reduceDimsWithKeepDims_eq, reduceDimsWithoutKeepDims_eq,
      or_iff_right hfail]
    by_cases hin : ∀ a ∈ usedAxes axes, InBounds inShape.length a
    · have hsub : ∀ j, Named inShape.length (usedAxes axes) j → Named inShape.length axes j :=
        fun j ⟨a, ha, hj⟩ => ⟨a, mem_of_mem_take ha, hj⟩
      have hleft := removeDims_eq_iff hsub 0 inShape
      simp only [Nat.zero_add] at hleft
      rw [if_pos hin, if_pos (.inl hin), firstInBounds_eq hin, ← hleft,
        ← removeDims_setOnes hsub 0 inShape]
      constructor
      · intro h
        exact .inl ⟨hin, h.2 _ _ rfl rfl⟩
      · rintro (⟨-, h⟩ | ⟨h, -⟩)
        · refine ⟨iff_of_true rfl rfl, ?_⟩
          intro out kept hout hkept
          rw [← Option.some.inj hout, ← Option.some.inj hkept]
          exact h
        · exact absurd hin h
    · rw [if_neg hin, if_congr (or_iff_right hin) rfl rfl]
      split
      next hall =>
        refine iff_of_false (fun h => (nomatch h.1.mp rfl)) ?_
        rintro (⟨h, -⟩ | ⟨-, h⟩)
        · exact hin h
        · exact h hall
      next hall => exact iff_of_true ⟨Iff.rfl, fun _ _ h => (nomatch h)⟩ (.inr ⟨hin, hall⟩)

/-- The axes of a scalar are checked with `keepDims` only. -/
theorem inferShape4Reduce_scalar : ¬ Agrees [] .DT_INT32 [5] := by
  intro h
  exact absurd h.1 (by decide)

end OpBase.Shape
