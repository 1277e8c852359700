import OpBase.Shape.BcastIndex

/-!
# The lists of elements that a broadcast reads

`BCastIndexes` goes from the last axis to the first. Along each it repeats the lists that it
has, once more for every step of the output, and adds the step to the entries of an input that
does not repeat (`listOf`). It does not come to an empty list at an axis without elements, but
where that is the last one.

> `listOf_eq`: without such axes a list has the elements that broadcasting reads.
>
> `listsAgree_positive`: there the lists are what the index functions give, if and only if
> nothing overflows.
-/

namespace OpBase.Shape.Bcast

open List OpBase.Lib
open RowMajor (ins ins_cons outs select stride)

/-! ## The list of one input -/

/-- The list of an input that has these sizes, with those of the output: what the loops do along
one axis more. -/
def listOf : List (ℤ × ℤ) → List ℤ
  | [] => [0]
  | a :: l => listOf l ++ pushed (listOf l) a.1 (ins l) a.2

/-- What is added to the entries of the `j`-th copy. -/
def shift (a : ℤ × ℤ) (l : List (ℤ × ℤ)) (j : ℤ) : ℤ := if a.1 = 1 then 0 else j * ins l

variable {a : ℤ × ℤ} {l : List (ℤ × ℤ)} {v : ℤ}

theorem listOf_cons (ha : 1 ≤ a.2) : listOf (a :: l) =
    (List.range a.2.toNat).flatMap fun j : ℕ => (listOf l).map fun v => v + shift a l j := by
  obtain ⟨n, hn⟩ : ∃ n, a.2.toNat = n + 1 := ⟨a.2.toNat - 1, by omega⟩
  have hzero : shift a l 0 = 0 := by
    unfold shift
    split
    · rfl
    · exact zero_mul _
  rw [listOf, pushed, hn, Nat.add_sub_cancel, range_eq_range', range'_succ, flatMap_cons, zero_add]
  congr 1
  rw [Nat.cast_zero, hzero]
  simp only [add_zero]
  exact (map_id _).symm

theorem range_mul (o n : ℕ) : List.range (o * n) =
    (List.range o).flatMap fun j => (List.range n).map fun i => j * n + i := by
  induction o with
  | zero => rw [zero_mul]; rfl
  | succ o ih =>
    rw [Nat.succ_mul, range_add, ih, range_succ, flatMap_append]
    simp

/-- Every axis of the output has elements, and the input has as many or one. -/
def Read (l : List (ℤ × ℤ)) : Prop := ∀ a ∈ l, 1 ≤ a.2 ∧ (a.1 = 1 ∨ a.1 = a.2)

theorem Read.tail (h : Read (a :: l)) : Read l :=
  fun b hb => h b (mem_cons_of_mem a hb)

theorem Read.outs_pos (h : Read l) : 0 < outs l :=
  RowMajor.outs_pos fun a ha => (h a ha).1

theorem select_step (hl : 0 < outs l) {j i : ℤ}
    (hj : 0 ≤ j) (hja : j < a.2) (hi : 0 ≤ i) (hil : i < outs l) :
    select (a :: l) (j * outs l + i) = select l i + shift a l j := by
  have hdiv : (j * outs l + i) / outs l = j := by
    rw [add_comm, Int.add_mul_ediv_right _ _ hl.ne', Int.ediv_eq_zero_of_lt hi hil, zero_add]
  have hmod : (j * outs l + i) % outs l = i := by
    rw [add_comm, Int.add_mul_emod_self_right, Int.emod_eq_of_lt hi hil]
  have hstride : j * stride a l = shift a l j := by
    unfold stride shift
    by_cases h1 : a.1 = 1
    · rw [if_pos h1]
      by_cases h2 : a.2 = 1
      · rw [show j = 0 by omega, zero_mul]
      · rw [if_pos ⟨h1, h2⟩, mul_zero]
    · rw [if_neg h1, if_neg fun h => h1 h.1]
  rw [RowMajor.select_cons, hdiv, hmod, hstride, add_comm]

theorem listOf_eq : ∀ {l : List (ℤ × ℤ)}, Read l → listOf l =
    (List.range (outs l).toNat).map fun k : ℕ => select l k
  | [], _ => rfl
  | a :: l, h => by
    have ha := h a mem_cons_self
    have hl := h.tail.outs_pos
    have houts : (outs (a :: l)).toNat = a.2.toNat * (outs l).toNat := by
      rw [RowMajor.outs_cons, Int.toNat_mul (by omega) hl.le]
    rw [listOf_cons ha.1, listOf_eq h.tail, houts, range_mul, map_flatMap]
    refine flatMap_congr fun j hj => ?_
    rw [map_map, map_map]
    refine map_congr_left fun i hi => ?_
    rw [mem_range] at hj hi
    have hcast : (((j * (outs l).toNat + i : ℕ) : ℤ)) = j * outs l + i := by
      push_cast
      rw [Int.toNat_of_nonneg hl.le]
    show select l i + shift a l j = select (a :: l) _
    rw [hcast, select_step hl (by omega) (by omega) (by omega) (by omega)]

theorem length_pushed (indexes : List ℤ) (dim bias outDim : ℤ) :
    (pushed indexes dim bias outDim).length = (outDim.toNat - 1) * indexes.length := by
  unfold pushed
  rw [length_flatMap]
  simp

theorem length_listOf : ∀ l : List (ℤ × ℤ),
    (listOf l).length = (l.map fun a => max 1 a.2.toNat).prod
  | [] => rfl
  | a :: l => by
    rw [listOf, length_append, length_pushed, length_listOf l, map_cons, prod_cons]
    have hmax : max 1 a.2.toNat = 1 + (a.2.toNat - 1) := by omega
    rw [hmax, Nat.add_mul, one_mul]

/-! ## Overflow -/

/-- The numbers that are made along an axis. -/
def computed (a : ℤ × ℤ) (l : List (ℤ × ℤ)) : List ℤ :=
  steps (listOf l) a.1 (ins l) a.2 ++ pushed (listOf l) a.1 (ins l) a.2 ++ [ins l * a.1]

def SideFits : List (ℤ × ℤ) → Prop
  | [] => True
  | a :: l => SideFits l ∧ ∀ v ∈ computed a l, IsInt64 v

/-- The sizes that `GenerateBcastInfo` leaves for an input and the output. -/
def Sized (l : List (ℤ × ℤ)) : Prop :=
  ∀ a ∈ l, 0 ≤ a.1 ∧ (a.1 = 1 ∨ a.1 = a.2 ∨ (a.1 = 0 ∧ a.2 = 1))

theorem Sized.tail (h : Sized (a :: l)) : Sized l :=
  fun b hb => h b (mem_cons_of_mem a hb)

theorem Sized.ins_nonneg : ∀ {l : List (ℤ × ℤ)}, Sized l → 0 ≤ ins l
  | [], _ => zero_le_one
  | a :: l, h => by
    rw [ins_cons]
    exact mul_nonneg (h a mem_cons_self).1 h.tail.ins_nonneg

/-- The number of elements of the input along any axes at the end is an `int64_t`. -/
def InsFit (l : List (ℤ × ℤ)) : Prop := ∀ t, t <:+ l → ins t < 2 ^ 63

theorem InsFit.tail (h : InsFit (a :: l)) : InsFit l :=
  fun t ht => h t (ht.trans (suffix_cons a l))

/-- An entry is below the number of elements of the input; behind an empty axis there are axes
of which this can be said. -/
def Below (l : List (ℤ × ℤ)) (v : ℤ) : Prop :=
  0 ≤ v ∧ (v < ins l ∨ (ins l = 0 ∧ ∃ t, t <:+ l ∧ v < ins t))

theorem Below.isInt64 (h : Below l v) (hl : InsFit l) : IsInt64 v := by
  obtain ⟨h0, h | ⟨-, t, ht, h⟩⟩ := h
  · have := hl l (suffix_refl l)
    exact ⟨by omega, by omega⟩
  · have := hl t ht
    exact ⟨by omega, by omega⟩

theorem Below.cons (h : Below l v) (ha : 0 ≤ a.1) : Below (a :: l) v := by
  obtain ⟨h0, h⟩ := h
  refine ⟨h0, ?_⟩
  rw [ins_cons]
  rcases h with h | ⟨hzero, t, ht, h⟩
  · by_cases hpos : a.1 = 0
    · exact Or.inr ⟨by rw [hpos, zero_mul], l, suffix_cons a l, h⟩
    · left
      have : 1 ≤ a.1 := by omega
      nlinarith
  · exact Or.inr ⟨by rw [hzero, mul_zero], t, ht.trans (suffix_cons a l), h⟩

theorem Below.shift {j : ℤ} (h : Below l v) (hl : Sized l) (ha : a.1 = 1 ∨ a.1 = a.2) (hj : 0 ≤ j)
    (hja : j < a.2) :
    Below (a :: l) (v + shift a l j) := by
  unfold Bcast.shift
  by_cases h1 : a.1 = 1
  · rw [if_pos h1, add_zero]
    exact h.cons (by omega)
  rw [if_neg h1]
  have hsize : a.1 = a.2 := ha.resolve_left h1
  obtain ⟨h0, h | ⟨hzero, t, ht, h⟩⟩ := h
  · have hins := hl.ins_nonneg
    have hstep : (j + 1) * ins l ≤ a.1 * ins l :=
      mul_le_mul_of_nonneg_right (by omega) hins
    have hback : (j + 1) * ins l = j * ins l + ins l := by ring
    refine ⟨add_nonneg h0 (mul_nonneg hj hins), Or.inl ?_⟩
    rw [ins_cons]
    omega
  · rw [hzero, mul_zero, add_zero]
    exact Below.cons ⟨h0, Or.inr ⟨hzero, t, ht, h⟩⟩ (by omega)

theorem mem_pushed (hv : v ∈ pushed (listOf l) a.1 (ins l) a.2) :
    ∃ w ∈ listOf l, ∃ j : ℤ, 1 ≤ j ∧ j < a.2 ∧ v = w + shift a l j := by
  unfold pushed at hv
  obtain ⟨j, hj, hv⟩ := mem_flatMap.mp hv
  obtain ⟨w, hw, rfl⟩ := mem_map.mp hv
  rw [mem_range'_1] at hj
  exact ⟨w, hw, j, by omega, by omega, rfl⟩

theorem mem_steps (hv : v ∈ steps (listOf l) a.1 (ins l) a.2) :
    a.1 ≠ 1 ∧ ∃ j : ℤ, 1 ≤ j ∧ j < a.2 ∧ v = j * ins l := by
  unfold steps at hv
  split at hv
  next => exact absurd hv not_mem_nil
  next hne =>
    obtain ⟨j, hj, rfl⟩ := mem_map.mp hv
    rw [mem_range'_1] at hj
    exact ⟨fun h => hne (Or.inr h), j, by omega, by omega, rfl⟩

theorem below_listOf : ∀ {l : List (ℤ × ℤ)}, Sized l → ∀ v ∈ listOf l, Below l v
  | [], _, v, hv => by
    rw [mem_singleton.mp hv]
    exact ⟨le_rfl, Or.inl zero_lt_one⟩
  | a :: l, h, v, hv => by
    have ha := h a mem_cons_self
    have ih := below_listOf h.tail
    rcases mem_append.mp hv with hv | hv
    · exact (ih v hv).cons ha.1
    · obtain ⟨w, hw, j, hj, hja, rfl⟩ := mem_pushed hv
      exact (ih w hw).shift h.tail (by omega) (by omega) hja

/-- The numbers made for an input fit just when its numbers of elements do, of all axes at the
end. -/
theorem sideFits_iff : ∀ {l : List (ℤ × ℤ)}, Sized l → (SideFits l ↔ InsFit l)
  | [], _ => by
    refine ⟨fun _ t ht => ?_, fun _ => trivial⟩
    rw [suffix_nil.mp ht]
    exact (by norm_num : (1 : ℤ) < 2 ^ 63)
  | a :: l, h => by
    have ha := h a mem_cons_self
    have hins := h.ins_nonneg
    have ih := sideFits_iff h.tail
    have hprod : ins l * a.1 = ins (a :: l) := mul_comm _ _
    rw [SideFits, ih]
    constructor
    · intro ⟨htail, hall⟩ t ht
      rcases suffix_cons_iff.mp ht with rfl | ht
      · rw [← hprod]
        exact (hall _ (mem_append_right _ mem_cons_self)).2
      · exact htail t ht
    · intro hfit
      have hall := hfit _ (suffix_refl _)
      refine ⟨hfit.tail, fun v hv => ?_⟩
      rcases mem_append.mp hv with hv | hv
      · rcases mem_append.mp hv with hv | hv
        · obtain ⟨hone, j, hj, hja, rfl⟩ := mem_steps hv
          have hsize : a.1 = a.2 := by omega
          have htail := h.tail.ins_nonneg
          have hstep : j * ins l ≤ a.1 * ins l :=
            mul_le_mul_of_nonneg_right (by omega) htail
          have hpos := mul_nonneg (show 0 ≤ j by omega) htail
          rw [ins_cons] at hall
          exact ⟨by omega, by omega⟩
        · obtain ⟨w, hw, j, hj, hja, rfl⟩ := mem_pushed hv
          exact ((below_listOf h.tail w hw).shift h.tail (by omega) (by omega) hja).isInt64 hfit
      · rw [mem_singleton.mp hv, hprod]
        exact ⟨by omega, hall⟩

/-! ## Both lists -/

def xSizes (l : List (ℤ × ℤ)) : List (ℤ × ℤ) := l.map fun a => (a.1, larger a)
def ySizes (l : List (ℤ × ℤ)) : List (ℤ × ℤ) := l.map fun a => (a.2, larger a)

/-- What the loops do along an axis. -/
def axisStep (a : ℤ × ℤ) (s : Indexes) : Indexes := indexesStep s (a.1, a.2, larger a)

/-- The state before the first axis, were it like the others. -/
def unit : Indexes := ⟨false, [0], [0], 1, 1⟩

/-- What the state is after these axes. -/
structure Listed (l : List (ℤ × ℤ)) (s : Indexes) : Prop where
  overflow : s.overflow = false ↔ SideFits (xSizes l) ∧ SideFits (ySizes l)
  xIndexes : s.xIndexes = listOf (xSizes l)
  yIndexes : s.yIndexes = listOf (ySizes l)
  xBias : s.xBias = ins (xSizes l)
  yBias : s.yBias = ins (ySizes l)

/-- By induction on the axes: the two lists and the counts that the loops hold after them. -/
theorem listed : ∀ l : List (ℤ × ℤ), Listed l (l.foldr axisStep unit)
  | [] => ⟨⟨fun _ => ⟨trivial, trivial⟩, fun _ => rfl⟩, rfl, rfl, rfl, rfl⟩
  | a :: l => by
    obtain ⟨hover, hx, hy, hxBias, hyBias⟩ := listed l
    refine ⟨?_, ?_, ?_, ?_, ?_⟩
    · show ((l.foldr axisStep unit).overflow || !decide (∀ v ∈ _, IsInt64 v)) = false ↔
        (SideFits (xSizes l) ∧ ∀ v ∈ computed (a.1, larger a) (xSizes l), IsInt64 v) ∧
          SideFits (ySizes l) ∧ ∀ v ∈ computed (a.2, larger a) (ySizes l), IsInt64 v
      rw [Bool.or_eq_false_iff, hover, Bool.not_eq_false', decide_eq_true_eq, hx, hy, hxBias,
        hyBias]
      unfold computed
      simp only [forall_mem_append, forall_mem_cons]
      tauto
    · show (l.foldr axisStep unit).xIndexes ++ pushed _ _ _ _ = _
      rw [hx, hxBias]
      rfl
    · show (l.foldr axisStep unit).yIndexes ++ pushed _ _ _ _ = _
      rw [hy, hyBias]
      rfl
    · show (l.foldr axisStep unit).xBias * a.1 = _
      rw [hxBias, mul_comm]
      rfl
    · show (l.foldr axisStep unit).yBias * a.2 = _
      rw [hyBias, mul_comm]
      rfl

theorem zip_zip_map (f : ℤ × ℤ → ℤ) : ∀ lx ly : List ℤ,
    lx.zip (ly.zip ((lx.zip ly).map f)) = (lx.zip ly).map fun a => (a.1, a.2, f a)
  | [], _ => rfl
  | _ :: _, [] => rfl
  | x :: lx, y :: ly => congrArg ((x, y, f (x, y)) :: ·) (zip_zip_map f lx ly)

variable {x y o : List ℤ} {info : Info} {S : Side}

/-- What an accepted output says of the shapes and of the description made of them. -/
theorem info_of_generates (h : generateBcastInfo x y o = some info) :
    (∀ a ∈ axes x y, Compat a) ∧ o = (axes x y).map larger ∧
      info.xReshape = lengthened (max x.length y.length) x ∧
      info.yReshape = lengthened (max x.length y.length) y ∧ info.shapeOut = o := by
  have hok := (generateBcastInfo_isSome_iff x y o).mp (by rw [h]; rfl)
  rw [generateBcastInfo_eq, if_pos hok.2] at h
  obtain ⟨r, -, rfl⟩ := Option.map_eq_some_iff.mp h
  exact ⟨hok.1, hok.2, rfl, rfl, rfl⟩

theorem reversed_sizes (h : generateBcastInfo x y o = some info) :
    info.xReshape.reverse.zip (info.yReshape.reverse.zip info.shapeOut.reverse) =
      ((axes x y).map fun a => (a.1, a.2, larger a)).reverse := by
  obtain ⟨-, ho, hix, hiy, hio⟩ := info_of_generates h
  have hx := length_lengthened (Nat.le_max_left x.length y.length)
  have hy := length_lengthened (Nat.le_max_right x.length y.length)
  have hlen : o.length = max x.length y.length := by rw [ho, length_map, length_axes]
  rw [hix, hiy, hio, zip_reverse (hy.trans hlen.symm), zip_reverse, ho]
  · exact congrArg List.reverse (zip_zip_map larger _ _)
  · rw [length_zip, hx, hy, hlen, Nat.min_self]

/-- The axes of shapes that broadcast, with sizes of `int64_t` that are not negative. -/
def Sizes (l : List (ℤ × ℤ)) : Prop :=
  ∀ a ∈ l, Compat a ∧ (0 ≤ a.1 ∧ a.1 < 2 ^ 63) ∧ 0 ≤ a.2 ∧ a.2 < 2 ^ 63

theorem sized_xSizes (h : Sizes l) : Sized (xSizes l) := by
  intro b hb
  obtain ⟨a, ha, rfl⟩ := mem_map.mp hb
  obtain ⟨hcompat, hx, hy⟩ := h a ha
  unfold Compat at hcompat
  unfold larger
  dsimp only
  omega

theorem sized_ySizes (h : Sizes l) : Sized (ySizes l) := by
  intro b hb
  obtain ⟨a, ha, rfl⟩ := mem_map.mp hb
  obtain ⟨hcompat, hx, hy⟩ := h a ha
  unfold Compat at hcompat
  unfold larger
  dsimp only
  omega

theorem insFit_singleton (ha : a.1 < 2 ^ 63) : InsFit [a] := by
  intro t ht
  rcases suffix_cons_iff.mp ht with rfl | ht
  · rw [ins_cons]
    exact (mul_one a.1).trans_lt ha
  · rw [suffix_nil.mp ht]
    exact (by norm_num : (1 : ℤ) < 2 ^ 63)

theorem listOf_singleton (ha : 1 ≤ a.2) :
    listOf [a] = (List.range a.2.toNat).map fun i : ℕ => if a.1 = 1 then 0 else (i : ℤ) := by
  rw [listOf_cons ha, map_eq_flatMap]
  have hcopy : ∀ j : ℕ, ((listOf []).map fun v => v + shift a [] j) =
      [if a.1 = 1 then 0 else (j : ℤ)] := by
    intro j
    show [0 + shift a [] j] = _
    rw [zero_add]
    unfold shift
    rw [show ins [] = 1 from rfl, mul_one]
  simp only [hcopy]

theorem firstIndexes_eq (h : Sizes [a]) (hpos : 1 ≤ larger a) :
    firstIndexes a.1 a.2 (larger a) = axisStep a unit := by
  obtain ⟨hover, hx, hy, hxBias, hyBias⟩ := listed [a]
  have ha := h a mem_cons_self
  have hfits : (axisStep a unit).overflow = false :=
    hover.mpr ⟨(sideFits_iff (sized_xSizes h)).mpr (insFit_singleton ha.2.1.2),
      (sideFits_iff (sized_ySizes h)).mpr (insFit_singleton ha.2.2.2)⟩
  have hxs : (axisStep a unit).xIndexes = (firstIndexes a.1 a.2 (larger a)).xIndexes :=
    hx.trans (listOf_singleton (a := (a.1, larger a)) hpos)
  have hys : (axisStep a unit).yIndexes = (firstIndexes a.1 a.2 (larger a)).yIndexes :=
    hy.trans (listOf_singleton (a := (a.2, larger a)) hpos)
  have hxb : (axisStep a unit).xBias = a.1 := hxBias.trans (mul_one _)
  have hyb : (axisStep a unit).yBias = a.2 := hyBias.trans (mul_one _)
  rw [Indexes.ext_iff]
  exact ⟨hfits.symm, hxs.symm, hys.symm, hxb.symm, hyb.symm⟩

theorem axisStep_empty (a : ℤ × ℤ) : axisStep a ⟨false, [], [], 0, 0⟩ = ⟨false, [], [], 0, 0⟩ := by
  have hpushed : ∀ dim bias outDim : ℤ, pushed [] dim bias outDim = [] := by
    intro dim bias outDim
    exact flatMap_eq_nil_iff.mpr fun _ _ => rfl
  unfold axisStep indexesStep
  simp only [hpushed, steps, true_or, if_true, zero_mul]
  decide

section

variable (h : generateBcastInfo x y o = some info)
include h

theorem bcastIndexes_last (hl : axes x y = l ++ [a]) :
    bcastIndexes info =
      if (l.foldr axisStep (firstIndexes a.1 a.2 (larger a))).overflow then none
      else some ((l.foldr axisStep (firstIndexes a.1 a.2 (larger a))).xIndexes,
        (l.foldr axisStep (firstIndexes a.1 a.2 (larger a))).yIndexes) := by
  have hrev : ((l ++ [a]).map fun a : ℤ × ℤ => (a.1, a.2, larger a)).reverse =
      (a.1, a.2, larger a) :: (l.map fun a : ℤ × ℤ => (a.1, a.2, larger a)).reverse := by
    rw [map_append, reverse_append]
    rfl
  have hfold : ((l.map fun a : ℤ × ℤ => (a.1, a.2, larger a)).reverse.foldl indexesStep
      (firstIndexes a.1 a.2 (larger a))) =
      l.foldr axisStep (firstIndexes a.1 a.2 (larger a)) := by
    rw [foldl_reverse, foldr_map]
    rfl
  unfold bcastIndexes
  rw [reversed_sizes h, hl, hrev]
  dsimp only
  rw [hfold]

theorem getLast_larger (hl : axes x y = l ++ [a]) :
    o.getLast? = some (larger a) := by
  rw [(info_of_generates h).2.1, hl, map_append]
  exact getLast?_concat

/-- If the last axis has elements, `BCastIndexes` gives the two lists just when both sides fit. -/
theorem bcastIndexes_iff {r : List ℤ × List ℤ} (hsizes : Sizes (axes x y))
    (hlast : o.getLast? ≠ some 0) :
    bcastIndexes info = some r ↔ (SideFits (xSizes (axes x y)) ∧ SideFits (ySizes (axes x y))) ∧
      r = (listOf (xSizes (axes x y)), listOf (ySizes (axes x y))) := by
  have hstate : bcastIndexes info =
      if ((axes x y).foldr axisStep unit).overflow then none
      else some (((axes x y).foldr axisStep unit).xIndexes,
        ((axes x y).foldr axisStep unit).yIndexes) := by
    rcases eq_nil_or_concat (axes x y) with hl | ⟨l, a, hl⟩
    · unfold bcastIndexes
      rw [reversed_sizes h, hl]
      rfl
    · -- the loop starts at the last axis, whose larger size is not zero
      rw [concat_eq_append] at hl
      have ha : Sizes [a] := by
        intro b hb
        rw [mem_singleton.mp hb]
        exact hsizes a (hl ▸ mem_append_right _ mem_cons_self)
      have hne : larger a ≠ 0 := fun hc => hlast (hc ▸ getLast_larger h hl)
      have hpos : 1 ≤ larger a := by
        have := (ha a mem_cons_self).2.1.1
        unfold larger at hne ⊢
        omega
      rw [bcastIndexes_last h hl, firstIndexes_eq ha hpos, hl, foldr_append]
      rfl
  obtain ⟨hover, hxs, hys, -, -⟩ := listed (axes x y)
  rw [hstate, hxs, hys, ← hover]
  split
  next hc =>
    exact ⟨fun hn => absurd hn (by simp), fun hf => absurd (hc.symm.trans hf.1) (by decide)⟩
  next hc =>
    rw [Option.some_inj, and_iff_right (by simpa using hc)]
    exact eq_comm

/-- If the last axis is empty, so are the lists. -/
theorem bcastIndexes_empty (hsizes : Sizes (axes x y))
    (hlast : o.getLast? = some 0) : bcastIndexes info = some ([], []) := by
  rcases eq_nil_or_concat (axes x y) with hl | ⟨l, a, hl⟩
  · rw [(info_of_generates h).2.1, hl] at hlast
    exact absurd hlast (by simp)
  rw [concat_eq_append] at hl
  have ha := hsizes a (hl ▸ mem_append_right _ mem_cons_self)
  have hzero : larger a = 0 := by
    rw [getLast_larger h hl] at hlast
    exact Option.some.inj hlast
  have hfirst : firstIndexes a.1 a.2 (larger a) = ⟨false, [], [], 0, 0⟩ := by
    have hx : a.1 = 0 := by unfold larger at hzero; omega
    have hy : a.2 = 0 := by unfold larger at hzero; omega
    rw [hx, hy, hzero]
    rfl
  have hrun : ∀ l : List (ℤ × ℤ),
      l.foldr axisStep ⟨false, [], [], 0, 0⟩ = ⟨false, [], [], 0, 0⟩ := by
    intro l
    induction l with
    | nil => rfl
    | cons b l ih => rw [foldr_cons, ih, axisStep_empty]
  rw [bcastIndexes_last h hl, hfirst, hrun]
  rfl

/-! ## Entries -/

end

theorem listOf_append (l : List (ℤ × ℤ)) : ∀ pre : List (ℤ × ℤ), listOf l <+: listOf (pre ++ l)
  | [] => prefix_refl _
  | _ :: pre => (listOf_append l pre).trans (prefix_append _ _)

theorem listOf_zero (l : List (ℤ × ℤ)) : (listOf l)[0]? = some 0 := by
  obtain ⟨t, ht⟩ := listOf_append [] l
  rw [append_nil] at ht
  rw [← ht]
  rfl

/-- Axes of size one in front leave the list as it is. -/
theorem listOf_ones : ∀ {pre : List (ℤ × ℤ)}, (∀ a ∈ pre, a.2 = 1) → listOf (pre ++ l) = listOf l
  | [], _ => rfl
  | a :: pre, h => by
    have ha := h a mem_cons_self
    rw [cons_append, listOf, listOf_ones fun b hb => h b (mem_cons_of_mem a hb), ha]
    exact append_nil _

/-- The second copy along an axis starts with the shift of that axis. -/
theorem listOf_copy (ha : 2 ≤ a.2) :
    (listOf (a :: l))[(listOf l).length]? = some (shift a l 1) := by
  obtain ⟨n, hn⟩ : ∃ n, a.2.toNat - 1 = n + 1 := ⟨a.2.toNat - 2, by omega⟩
  have hne : listOf l ≠ [] := by
    intro hc
    have h := listOf_zero l
    rw [hc] at h
    exact absurd h (by simp)
  obtain ⟨v, vs, hvs⟩ := exists_cons_of_ne_nil hne
  have hv : v = 0 := by
    have h := listOf_zero l
    rw [hvs] at h
    exact Option.some.inj h
  rw [listOf, getElem?_append_right le_rfl, Nat.sub_self, pushed, hn, range'_succ,
    flatMap_cons, hvs, hv]
  show some (0 + shift a l (1 : ℕ)) = _
  rw [zero_add]
  rfl

/-! ## What the lists should be -/

/-- `BCastIndexes` makes two lists of the length of the output, whose entries are what the index
functions give. -/
def ListsAgree (x y : List ℤ) (info : Info) : Prop :=
  ∃ xs ys, bcastIndexes info = some (xs, ys) ∧ (xs.length : ℤ) = info.shapeOut.prod ∧
    (ys.length : ℤ) = info.shapeOut.prod ∧
    ∀ k : ℕ, (k : ℤ) < info.shapeOut.prod →
      xs[k]? = (int64 k).bind (getBroadcastXIndex (bcast x y)) ∧
        ys[k]? = (int64 k).bind (getBroadcastYIndex (bcast x y))

/-- In front of an axis that pairs a 0 with a 1 there are only axes of the same pair, and of
size one. -/
def ZerosInFront (l : List (ℤ × ℤ)) : Prop :=
  l.Pairwise fun a z => ZeroOne z → a = (1, 1) ∨ a = z

instance (l : List (ℤ × ℤ)) : Decidable (ZerosInFront l) :=
  inferInstanceAs (Decidable (List.Pairwise _ l))

/-- The shapes that the lists are right for. -/
def ListsFit (l : List (ℤ × ℤ)) (o : List ℤ) : Prop :=
  if 0 ∈ o then o.getLast? = some 0
  else o.prod ≤ 2 ^ 63 ∧ count (groups l).tail.flatten < 2 ^ 63 ∧
    InsFit (xSizes l) ∧ InsFit (ySizes l) ∧ ZerosInFront l

/-- What one index function gives is in the list of its input. -/
def SideAgrees (S : Side) (x y : List ℤ) (n : ℤ) : Prop :=
  ∀ k : ℕ, (k : ℤ) < n →
    (listOf ((axes x y).map fun a => (S.size a, larger a)))[k]? =
      (int64 k).bind (S.index (bcast x y))

/-- The output has elements along the last axis: the lists are those of `listOf`. -/
theorem listsAgree_iff_entries (h : generateBcastInfo x y o = some info) (hsizes : Sizes (axes x y))
    (hlast : o.getLast? ≠ some 0) :
    ListsAgree x y info ↔ (InsFit (xSizes (axes x y)) ∧ InsFit (ySizes (axes x y))) ∧
      (((listOf (xSizes (axes x y))).length : ℤ) = o.prod ∧
        ((listOf (ySizes (axes x y))).length : ℤ) = o.prod) ∧
      SideAgrees xSide x y o.prod ∧ SideAgrees ySide x y o.prod := by
  have hout := (info_of_generates h).2.2.2.2
  have hfits : (SideFits (xSizes (axes x y)) ∧ SideFits (ySizes (axes x y))) ↔
      (InsFit (xSizes (axes x y)) ∧ InsFit (ySizes (axes x y))) :=
    and_congr (sideFits_iff (sized_xSizes hsizes)) (sideFits_iff (sized_ySizes hsizes))
  unfold ListsAgree
  rw [hout]
  constructor
  · rintro ⟨xs, ys, hlists, hxs, hys, hall⟩
    obtain ⟨hf, heq⟩ := (bcastIndexes_iff h hsizes hlast).mp hlists
    obtain ⟨rfl, rfl⟩ := Prod.mk.inj heq
    exact ⟨hfits.mp hf, ⟨hxs, hys⟩, fun k hk => (hall k hk).1, fun k hk => (hall k hk).2⟩
  · intro ⟨hf, ⟨hxs, hys⟩, hx, hy⟩
    exact ⟨_, _, (bcastIndexes_iff h hsizes hlast).mpr ⟨hfits.mpr hf, rfl⟩, hxs, hys,
      fun k hk => ⟨hx k hk, hy k hk⟩⟩

/-- The list of an input has an entry for each element of the output. -/
theorem length_sizes (f : ℤ × ℤ → ℤ) (h : ∀ a ∈ l, 1 ≤ larger a) :
    ((listOf (l.map fun a => (f a, larger a))).length : ℤ) = (l.map larger).prod := by
  rw [length_listOf, map_map]
  induction l with
  | nil => rfl
  | cons a l ih =>
    have ha := h a mem_cons_self
    have hmax : ((max 1 (larger a).toNat : ℕ) : ℤ) = larger a := by omega
    rw [map_cons, prod_cons, map_cons, prod_cons, Nat.cast_mul,
      ih fun b hb => h b (mem_cons_of_mem a hb)]
    exact congrArg (· * _) hmax

theorem length_ne_zero (l : List (ℤ × ℤ)) : (listOf l).length ≠ 0 := by
  intro hc
  have h := listOf_zero l
  rw [length_eq_zero_iff.mp hc] at h
  exact absurd h (by simp)

/-- An index that is not an `int64_t` cannot be asked for. -/
theorem prod_le_of_sideAgrees {x y : List ℤ} {n : ℤ} (h : SideAgrees S x y n)
    (hlen : ((listOf ((axes x y).map fun a => (S.size a, larger a))).length : ℤ) = n) :
    n ≤ 2 ^ 63 := by
  by_contra hn
  push Not at hn
  have hk := h (2 ^ 63) (by exact_mod_cast hn)
  have hnone : int64 ((2 ^ 63 : ℕ) : ℤ) = none := if_neg fun hc => absurd hc.2 (by norm_num)
  rw [hnone, Option.bind_none, List.getElem?_eq_none_iff] at hk
  omega

theorem SideAgrees.index_zero {x y : List ℤ} {n : ℤ} (h : SideAgrees S x y n) (hn : 0 < n) :
    S.index (bcast x y) 0 = some 0 := by
  have h0 := h 0 hn
  rw [listOf_zero] at h0
  exact h0.symm

theorem SideAgrees.not_overflow {x y : List ℤ} {n : ℤ} (h : SideAgrees S x y n) (hn : 0 < n) :
    (bcast x y).overflow = false := by
  by_contra hover
  have h0 := h.index_zero hn
  rw [S.index_overflow (by simpa using hover)] at h0
  exact absurd h0 (by simp)

/-! ## Without empty axes -/

/-- If no axis of the output is empty and none pairs a zero with a one, no input is empty. -/
theorem positive_of_larger (h : Sizes l) (hlarger : ∀ a ∈ l, larger a ≠ 0)
    (hz : ∀ a ∈ l, ¬ ZeroOne a) : Positive l := by
  intro a ha
  obtain ⟨hcompat, hx, hy⟩ := h a ha
  have hne := hlarger a ha
  have hzero := hz a ha
  obtain ⟨x, y⟩ := a
  unfold ZeroOne at hzero
  unfold larger at hne
  have hc := hcompat
  unfold Compat at hc
  simp only [Prod.mk.injEq] at hzero hx hy hc hne ⊢
  refine ⟨?_, ?_, hcompat⟩ <;> omega

theorem Positive.larger_eq_out (h : Positive l) : ∀ a ∈ l, larger a = out a := by
  intro a ha
  obtain ⟨hx, hy, hcompat⟩ := h a ha
  refine (larger_eq_out_iff (by omega) (by omega) hcompat).mpr ?_
  rintro (rfl | rfl)
  · exact absurd hx (by decide)
  · exact absurd hy (by decide)

/-- The entries of the list are the elements that the axes select. -/
theorem Positive.entries (h : Positive l) {k : ℕ} (hk : (k : ℤ) < count l) :
    (listOf (l.map fun a => (S.size a, larger a)))[k]? = some (select (l.map S.axis) k) := by
  have hmap : l.map (fun a => (S.size a, larger a)) = l.map S.axis :=
    map_congr_left fun a ha => congrArg (S.size a, ·) (h.larger_eq_out a ha)
  have hread : Read (l.map S.axis) := by
    intro b hb
    obtain ⟨a, ha, rfl⟩ := mem_map.mp hb
    obtain ⟨hx, hy, hcompat⟩ := h a ha
    have hpos := out_pos hx hy
    refine ⟨hpos, ?_⟩
    by_cases hkind : kind a = S.own
    · exact Or.inl (S.reads_own hcompat hkind).2
    · exact Or.inr (S.reads_other hcompat hkind).2
  rw [hmap, listOf_eq hread, getElem?_map, getElem?_range]
  · rfl
  · rw [Side.outs_axis]
    omega

theorem count_group {g : List (ℤ × ℤ)} (h : Grouped g) :
    count g = (g.map Prod.fst).prod ∨ count g = (g.map Prod.snd).prod := by
  have hg : ∀ a ∈ g, Compat a := fun a ha => (h.positive a ha).2.2
  obtain ⟨b, hb⟩ := exists_mem_of_ne_nil g h.ne_nil
  by_cases hown : kind b = .xOne
  · right
    refine congrArg List.prod (map_congr_left fun a ha => ?_)
    refine (ySide.reads_other (hg a ha) ?_).2.symm
    rw [h.kind a ha b hb, hown]
    decide
  · left
    refine congrArg List.prod (map_congr_left fun a ha => ?_)
    refine (xSide.reads_other (hg a ha) ?_).2.symm
    rw [h.kind a ha b hb]
    exact hown

theorem head_size_le (S : Side) (h : Positive l) :
    (((groups l).headD []).map S.size).prod ≤ (l.map S.size).prod := by
  have htail := S.reads_grouped fun g hg => grouped h g (mem_of_mem_tail hg)
  have hpos : 0 < (((groups l).tail.map merged).map S.dimSize).prod := prod_pos htail.size_pos
  have hhead : 0 < (((groups l).headD []).map S.size).prod := by
    refine prod_pos fun a ha => ?_
    have hmem : a ∈ (entries l).flatten := mem_append_left _ ha
    rw [flatten_entries] at hmem
    obtain ⟨hx, hy, hcompat⟩ := h a (mem_filter.mp hmem).1
    exact (S.bounds hx hy hcompat).1
  have hprod := S.prod_size l
  unfold entries at hprod
  rw [map_cons, map_cons, prod_cons, S.size_merged] at hprod
  nlinarith

theorem tail_eq_nil (h : (groups l).headD [] = []) : (groups l).tail = [] := by
  match hgs : groups l with
  | [] => rfl
  | g :: gs =>
    rw [hgs] at h
    obtain rfl : g = [] := h
    exact absurd (hgs ▸ mem_cons_self) (nil_not_mem_groups l)

/-- The products that `BCastIndexes` makes bound those that the constructor makes. -/
theorem fits_of_insFit (h : Positive l) (hx : InsFit (xSizes l))
    (hy : InsFit (ySizes l)) (hcount : count l ≤ 2 ^ 63) : Fits l := by
  have hxl : (l.map Prod.fst).prod < 2 ^ 63 := by
    have := hx _ (suffix_refl _)
    unfold ins xSizes at this
    rwa [map_map] at this
  have hyl : (l.map Prod.snd).prod < 2 ^ 63 := by
    have := hy _ (suffix_refl _)
    unfold ins ySizes at this
    rwa [map_map] at this
  have hxg : (((groups l).headD []).map Prod.fst).prod ≤ _ := head_size_le xSide h
  have hyg : (((groups l).headD []).map Prod.snd).prod ≤ _ := head_size_le ySide h
  have hxe : (l.map xSide.size).prod = (l.map Prod.fst).prod := rfl
  have hye : (l.map ySide.size).prod = (l.map Prod.snd).prod := rfl
  constructor
  · rcases headD_positive h with hnil | hg
    · rw [hnil]
      exact (by norm_num : (1 : ℤ) < 2 ^ 63)
    · rcases count_group hg with hc | hc <;> omega
  · rcases headD_positive h with hnil | hg
    · rw [tail_eq_nil hnil]
      exact (by norm_num : (1 : ℤ) < 2 ^ 63)
    · have h2 := two_le_count hg.ne_nil hg.positive hg.not_one
      have htail : 0 < count (groups l).tail.flatten :=
        (positive_flatten fun g hg => grouped h g (mem_of_mem_tail hg)).count_pos
      have hsplit : count l = count ((groups l).headD []) * count (groups l).tail.flatten := by
        rw [← count_entries, ← count_append]
        rfl
      nlinarith

/-- The lists are right on shapes without empty axes just when what they are computed from fits. -/
theorem listsAgree_positive (h : generateBcastInfo x y o = some info) (hsizes : Sizes (axes x y))
    (hpos : Positive (axes x y)) : ListsAgree x y info ↔ ListsFit (axes x y) o := by
  have ho := (info_of_generates h).2.1
  have hlarger : ∀ a ∈ axes x y, 1 ≤ larger a := fun a ha => by
    rw [hpos.larger_eq_out a ha]
    exact out_pos (hpos a ha).1 (hpos a ha).2.1
  have hzero : 0 ∉ o := by
    rw [ho]
    intro hc
    obtain ⟨a, ha, hla⟩ := mem_map.mp hc
    have := hlarger a ha
    omega
  have hlast : o.getLast? ≠ some 0 := fun hc => hzero (mem_of_getLast? hc)
  have hcount : o.prod = count (axes x y) := by
    rw [ho]
    exact congrArg List.prod (map_congr_left hpos.larger_eq_out)
  have hfront : ZerosInFront (axes x y) := by
    refine pairwise_of_forall_mem_list fun a _ z hz hzo => ?_
    have hz' := hpos z hz
    rcases hzo with rfl | rfl
    · exact absurd hz'.1 (by decide)
    · exact absurd hz'.2.1 (by decide)
  unfold ListsFit
  rw [if_neg hzero, listsAgree_iff_entries h hsizes hlast]
  have hlenx := length_sizes Prod.fst hlarger
  have hleny := length_sizes Prod.snd hlarger
  rw [← ho] at hlenx hleny
  have hout : ∀ a ∈ axes x y, out a < 2 ^ 63 := by
    intro a ha
    obtain ⟨-, hx, hy⟩ := hsizes a ha
    unfold out
    split <;> omega
  constructor
  · -- the first entry already needs that the product does not overflow
    intro ⟨⟨hx, hy⟩, ⟨hlen, _⟩, hagree, _⟩
    have hover := hagree.not_overflow (hcount ▸ hpos.count_pos)
    exact ⟨prod_le_of_sideAgrees hagree hlen, ((not_overflow_iff hpos hout).mp hover).2, hx, hy,
      hfront⟩
  · intro ⟨hle, _, hx, hy, _⟩
    have hover := (not_overflow_iff hpos hout).mpr (fits_of_insFit hpos hx hy (hcount ▸ hle))
    have hmaps := mapsRight_of_not_overflow hpos hover
    refine ⟨⟨hx, hy⟩, ⟨hlenx, hleny⟩, fun k hk => ?_, fun k hk => ?_⟩
    · have hint : IsInt64 k := ⟨by omega, by omega⟩
      have hk' : (k : ℤ) < count (axes x y) := hcount ▸ hk
      rw [hpos.entries hk', int64, if_pos hint, Option.bind_some]
      exact (hmaps.xIndex k (by omega) hk' hint).symm
    · have hint : IsInt64 k := ⟨by omega, by omega⟩
      have hk' : (k : ℤ) < count (axes x y) := hcount ▸ hk
      rw [hpos.entries hk', int64, if_pos hint, Option.bind_some]
      exact (hmaps.yIndex k (by omega) hk' hint).symm

end OpBase.Shape.Bcast
