import OpBase.Lib.Overlay

/-!
# Broadcasting of shapes

Three routines infer how two shapes broadcast. `CheckBroadcastShape` and
`BroadcastInferShape` (`shape_utils.cpp`) tell the longer shape from the shorter one and go
from the last axis to the first, and `BroadcastShape` (`infershape_broadcast_util.cpp`)
starts from a copy of the one shape and overlays it in place with the other, from the last
axis or from the first, depending on which of them is longer. The latter knows dimensions and
ranks that are not known yet.

All of them do the same: the shapes are aligned at their last axes, and what meets there is
combined (`aligned`). Whatever the output held before has no part in it.

> `broadcast_agree`: without unknown dimensions the routines accept the same shapes and have
> the same result, whichever shape comes first and however three of them are combined.
-/

namespace OpBase.Shape

open List OpBase.Lib.Overlay
open Option (bind_map bind_none bind_some map_some some.inj)

def getDim (shape : List ℤ) (i : ℕ) : ℤ := shape.getD i 0

/-- `SetDimNum` leaves the dimensions as they are. -/
def setDimNum (shape : List ℤ) (dimNum : ℕ) : List ℤ :=
  shape.take dimNum ++ List.replicate (dimNum - shape.length) 0

/-- The loop that takes over the leading axes of the longer shape. -/
def copyDims (shape : List ℤ) (lenSub : ℕ) (out : List ℤ) : List ℤ :=
  (List.range lenSub).foldl (fun out i => out.set i (getDim shape i)) out

/-! ## `shape_utils.cpp` -/

/-- The new `dim1`, unless the dimensions do not broadcast. -/
def broadcastDim (dim1 dim2 : ℤ) : Option ℤ :=
  if dim1 = dim2 then some dim1
  else if dim1 ≠ 1 ∧ dim2 ≠ 1 then none
  else some (if dim1 = 1 then dim2 else dim1)

/-- `largerDimShape` and `smallerDimShape`. -/
def largerSmaller (self other : List ℤ) : List ℤ × List ℤ :=
  if other.length < self.length then (self, other) else (other, self)

/-- The loop over `i` down to zero. -/
def checkLoop (larger smaller : List ℤ) (lenSub : ℕ) : ℕ → Bool
  | 0 => true
  | i + 1 =>
    match broadcastDim (getDim larger (lenSub + i)) (getDim smaller i) with
    | none => false
    | some _ => checkLoop larger smaller lenSub i

def checkBroadcastShape (self other : List ℤ) : Bool :=
  let (larger, smaller) := largerSmaller self other
  checkLoop larger smaller (larger.length - smaller.length) smaller.length

def inferLoop (larger smaller : List ℤ) (lenSub : ℕ) (out : List ℤ) : ℕ → Option (List ℤ)
  | 0 => some out
  | i + 1 => do
    let dim ← broadcastDim (getDim larger (lenSub + i)) (getDim smaller i)
    inferLoop larger smaller lenSub (out.set (lenSub + i) dim) i

/-- The last argument is what `broadcastShape` held before. -/
def broadcastInferShape (self other broadcastShape : List ℤ) : Option (List ℤ) := do
  let (larger, smaller) := largerSmaller self other
  let lenSub := larger.length - smaller.length
  let out ← inferLoop larger smaller lenSub (setDimNum broadcastShape larger.length)
    smaller.length
  some (copyDims larger lenSub out)

/-! ## `infershape_broadcast_util.cpp` -/

namespace Ops

/-- Minus one stands for a dimension that is not known yet. -/
def broadcastDim (dim1 dim2 : ℤ) : Option ℤ :=
  if dim1 = dim2 then some dim1
  else if dim1 ≠ 1 ∧ dim2 ≠ 1 then
    if dim1 = -1 ∨ dim2 = -1 then some (if dim1 = -1 then dim2 else dim1) else none
  else some (if dim1 = 1 then dim2 else dim1)

def isUnknownRank (shape : List ℤ) : Bool := shape.length = 1 && getDim shape 0 = -2

/-- The loop for an output that has become longer, in which it moves to the last axes. -/
def growLoop (shape : List ℤ) (lenSub : ℕ) (out : List ℤ) : ℕ → Option (List ℤ)
  | 0 => some out
  | i + 1 => do
    let dim ← broadcastDim (getDim shape (lenSub + i)) (getDim out i)
    growLoop shape lenSub (out.set (lenSub + i) dim) i

/-- The loop for an output that is not shorter, from axis `i` of the shape. -/
def keepLoop (lenSub i : ℕ) (out : List ℤ) : List ℤ → Option (List ℤ)
  | [] => some out
  | dim2 :: rest => do
    let dim ← broadcastDim (getDim out (lenSub + i)) dim2
    keepLoop lenSub (i + 1) (out.set (lenSub + i) dim) rest

def broadcastShapeToOutShape (shape shapeOutput : List ℤ) : Option (List ℤ) :=
  if isUnknownRank shape || isUnknownRank shapeOutput then some [-2]
  else if shapeOutput.length < shape.length then do
    let lenSub := shape.length - shapeOutput.length
    let out ← growLoop shape lenSub (setDimNum shapeOutput shape.length) shapeOutput.length
    some (copyDims shape lenSub out)
  else keepLoop (shapeOutput.length - shape.length) 0 shapeOutput shape

def broadcastShape (in1Shape in2Shape : List ℤ) : Option (List ℤ) :=
  broadcastShapeToOutShape in2Shape in1Shape

end Ops

/-! ## Dimensions -/

theorem broadcastDim_self (x : ℤ) : broadcastDim x x = some x := if_pos rfl

theorem one_broadcastDim (y : ℤ) : broadcastDim 1 y = some y := by
  unfold broadcastDim
  split
  next h => rw [h]
  next => rw [if_neg (fun h => h.1 rfl), if_pos rfl]

theorem broadcastDim_one (x : ℤ) : broadcastDim x 1 = some x := by
  unfold broadcastDim
  split
  · rfl
  · rw [if_neg (fun h => h.2 rfl)]

theorem broadcastDim_none {x y : ℤ} (h : x ≠ y) (hx : x ≠ 1) (hy : y ≠ 1) :
    broadcastDim x y = none := by
  unfold broadcastDim
  rw [if_neg h, if_pos ⟨hx, hy⟩]

theorem broadcastDim_comm (x y : ℤ) : broadcastDim x y = broadcastDim y x := by
  by_cases hx : x = 1
  · rw [hx, one_broadcastDim, broadcastDim_one]
  by_cases hy : y = 1
  · rw [hy, one_broadcastDim, broadcastDim_one]
  by_cases h : x = y
  · rw [h]
  · rw [broadcastDim_none h hx hy, broadcastDim_none (Ne.symm h) hy hx]

theorem broadcastDim_assoc (x y z : ℤ) :
    (broadcastDim x y).bind (broadcastDim · z) = (broadcastDim y z).bind (broadcastDim x) := by
  by_cases hx : x = 1
  · rw [hx, one_broadcastDim, bind_some, funext one_broadcastDim, Option.bind_fun_some]
  by_cases hz : z = 1
  · rw [hz, broadcastDim_one, bind_some, funext broadcastDim_one, Option.bind_fun_some]
  by_cases hy : y = 1
  · rw [hy, broadcastDim_one, one_broadcastDim, bind_some, bind_some]
  -- without ones, all the three have to be equal
  by_cases hxy : x = y
  · by_cases hyz : y = z
    · rw [hxy, hyz, broadcastDim_self, bind_some, bind_some]
    · rw [hxy, broadcastDim_self, bind_some, broadcastDim_none hyz hy hz, bind_none]
  · rw [broadcastDim_none hxy hx hy, bind_none]
    by_cases hyz : y = z
    · rw [← hyz, broadcastDim_self, bind_some, broadcastDim_none hxy hx hy]
    · rw [broadcastDim_none hyz hy hz, bind_none]

theorem broadcastDim_laws : Laws broadcastDim := ⟨broadcastDim_comm, broadcastDim_assoc⟩

theorem opsBroadcastDim_eq (x y : ℤ) (hx : 0 ≤ x) (hy : 0 ≤ y) :
    Ops.broadcastDim x y = broadcastDim x y := by
  have h : ¬ (x = -1 ∨ y = -1) := by omega
  unfold Ops.broadcastDim broadcastDim
  rw [if_neg h]

theorem broadcastDim_nonneg (x y z : ℤ) (hx : 0 ≤ x) (hy : 0 ≤ y)
    (h : broadcastDim x y = some z) : 0 ≤ z := by
  unfold broadcastDim at h
  split at h
  · exact some.inj h ▸ hx
  split at h
  · cases h
  obtain rfl := some.inj h
  split
  · exact hy
  · exact hx

/-! ## The loops -/

/-- The shapes aligned at their last axes. -/
def aligned (f : ℤ → ℤ → Option ℤ) (larger smaller : List ℤ) : Option (List ℤ) :=
  (overlay f larger.reverse smaller.reverse).map List.reverse

variable {shape : List ℤ} {lenSub : ℕ} {f : ℤ → ℤ → Option ℤ}

theorem getDim_eq {i : ℕ} (h : i < shape.length) : getDim shape i = shape[i] :=
  getD_eq_getElem shape 0 h

theorem getDim_set_ne {i j : ℕ} (d : ℤ) (h : i ≠ j) :
    getDim (shape.set i d) j = getDim shape j := by
  unfold getDim
  rw [getD_eq_getElem?_getD, getElem?_set_ne h, ← getD_eq_getElem?_getD]

theorem drop_set {i : ℕ} (d : ℤ) (h : i < shape.length) :
    (shape.set i d).drop i = d :: shape.drop (i + 1) := by
  have hset : i < (shape.set i d).length := by rwa [length_set]
  rw [drop_eq_getElem_cons hset, getElem_set_self, drop_set_of_lt (Nat.lt_succ_self i)]

theorem take_set {i : ℕ} (d : ℤ) (h : i < shape.length) :
    (shape.set i d).take (i + 1) = shape.take i ++ [d] := by
  have hset : i < (shape.set i d).length := by rwa [length_set]
  rw [take_succ_eq_append_getElem hset, getElem_set_self, take_set_of_le (Nat.le_refl i)]

theorem setDimNum_length (shape : List ℤ) (n : ℕ) : (setDimNum shape n).length = n := by
  unfold setDimNum
  rw [length_append, length_take, length_replicate]
  omega

theorem copyDims_eq (larger out : List ℤ) : ∀ {n : ℕ}, n ≤ larger.length → n ≤ out.length →
    copyDims larger n out = larger.take n ++ out.drop n
  | 0, _, _ => rfl
  | n + 1, hl, ho => by
    have ih := copyDims_eq larger out (n := n) (by omega) (by omega)
    have hlen : (larger.take n).length = n := length_take_of_le (by omega)
    unfold copyDims at ih ⊢
    rw [range_succ, foldl_append, ih, foldl_cons, foldl_nil, getDim_eq hl,
      set_append_right _ _ (Nat.le_of_eq hlen), hlen, Nat.sub_self,
      drop_eq_getElem_cons ho, set_cons_zero, take_succ_eq_append_getElem hl,
      append_assoc, singleton_append]

/-- Down to axis zero the first `n` dimensions of the shorter shape meet those behind the first
`lenSub` ones. -/
theorem inferLoop_eq {larger smaller : List ℤ} : ∀ {n : ℕ} {out : List ℤ},
    n ≤ smaller.length → lenSub + n ≤ larger.length → lenSub + n ≤ out.length →
    inferLoop larger smaller lenSub out n =
      (overlay broadcastDim ((larger.drop lenSub).take n).reverse (smaller.take n).reverse).map
        fun r => out.take lenSub ++ r.reverse ++ out.drop (lenSub + n)
  | 0, out, _, _, _ => by
    have happ : out.take lenSub ++ [] ++ out.drop lenSub = out := by
      rw [append_nil, take_append_drop]
    exact congrArg some happ.symm
  | n + 1, out, hs, hl, ho => by
    have hn : n < (larger.drop lenSub).length := by
      rw [length_drop]
      omega
    rw [inferLoop, getDim_eq (by omega), getDim_eq (by omega),
      take_succ_eq_append_getElem hn, take_succ_eq_append_getElem hs,
      reverse_append, reverse_append, getElem_drop, reverse_singleton,
      reverse_singleton, singleton_append, singleton_append, overlay_cons]
    cases hd : broadcastDim larger[lenSub + n] smaller[n] with
    | none => rfl
    | some d =>
      rw [Option.bind_eq_bind, bind_some, bind_some,
        inferLoop_eq (by omega) (by omega) (by rw [length_set]; omega), Option.map_map]
      refine congrArg (Option.map · _) (funext fun r => ?_)
      rw [Function.comp_apply, take_set_of_le (Nat.le_add_right _ _), drop_set d (by omega),
        reverse_cons]
      simp only [append_assoc, singleton_append, Nat.add_assoc]

theorem growLoop_eq {larger smaller : List ℤ} (hlarger : ∀ x ∈ larger, 0 ≤ x)
    (hsmaller : ∀ x ∈ smaller, 0 ≤ x) : ∀ {n : ℕ} {out : List ℤ}, n ≤ smaller.length →
    lenSub + n ≤ larger.length → (∀ i < n, getDim out i = getDim smaller i) →
    Ops.growLoop larger lenSub out n = inferLoop larger smaller lenSub out n
  | 0, _, _, _, _ => rfl
  | n + 1, out, hs, hl, ho => by
    rw [Ops.growLoop, inferLoop, ho n (Nat.lt_succ_self n), getDim_eq (by omega),
      getDim_eq (by omega), opsBroadcastDim_eq _ _ (hlarger _ (getElem_mem _))
        (hsmaller _ (getElem_mem _))]
    refine congrArg _ (funext fun d => ?_)
    refine growLoop_eq hlarger hsmaller (by omega) (by omega) fun i hi => ?_
    rw [getDim_set_ne d (by omega), ho i (by omega)]

theorem keepLoop_eq : ∀ {rest : List ℤ} {i : ℕ} {out : List ℤ},
    out.length = lenSub + i + rest.length → Ops.keepLoop lenSub i out rest =
      (overlay Ops.broadcastDim (out.drop (lenSub + i)) rest).map (out.take (lenSub + i) ++ ·)
  | [], i, out, _ => by
    rw [overlay_nil_right, map_some, take_append_drop]
    rfl
  | dim2 :: rest, i, out, h => by
    rw [length_cons] at h
    have hi : lenSub + i < out.length := by omega
    rw [Ops.keepLoop, getDim_eq hi, drop_eq_getElem_cons hi, overlay_cons]
    cases Ops.broadcastDim out[lenSub + i] dim2 with
    | none => rfl
    | some d =>
      rw [Option.bind_eq_bind, bind_some, bind_some,
        keepLoop_eq (by rw [length_set]; omega), Option.map_map, ← Nat.add_assoc,
        take_set d hi, drop_set_of_lt (Nat.lt_succ_self _)]
      refine congrArg (Option.map · _) (funext fun r => ?_)
      rw [Function.comp_apply, append_assoc, singleton_append]

theorem checkLoop_eq (larger smaller : List ℤ) (lenSub : ℕ) : ∀ (n : ℕ) (out : List ℤ),
    checkLoop larger smaller lenSub n = (inferLoop larger smaller lenSub out n).isSome
  | 0, _ => rfl
  | n + 1, out => by
    rw [checkLoop, inferLoop]
    cases broadcastDim (getDim larger (lenSub + n)) (getDim smaller n) with
    | none => rfl
    | some d => exact checkLoop_eq larger smaller lenSub n _

/-! ## The routines -/

theorem aligned_comm (hf : Laws f) (a b : List ℤ) :
    aligned f a b = aligned f b a := by
  unfold aligned
  rw [overlay_comm hf]

theorem aligned_assoc (hf : Laws f) (a b c : List ℤ) :
    (aligned f a b).bind (aligned f · c) = (aligned f b c).bind (aligned f a) := by
  have h := congrArg (Option.map List.reverse) (overlay_assoc hf a.reverse b.reverse c.reverse)
  simp only [Option.map_bind, Function.comp_def] at h
  simp only [aligned, bind_map, Function.comp_def, reverse_reverse]
  exact h

theorem aligned_eq {larger smaller : List ℤ} (h : larger.length = lenSub + smaller.length) :
    aligned f larger smaller =
      (overlay f (larger.drop lenSub).reverse smaller.reverse).map
        fun r => larger.take lenSub ++ r.reverse := by
  have hlen : (larger.drop lenSub).reverse.length = smaller.reverse.length := by
    rw [length_reverse, length_reverse, length_drop]
    omega
  unfold aligned
  rw [← append_nil smaller.reverse]
  conv_lhs => rw [← take_append_drop lenSub larger, reverse_append]
  rw [overlay_append hlen, overlay_nil_right, append_nil]
  cases overlay f (larger.drop lenSub).reverse smaller.reverse with
  | none => rfl
  | some r =>
    rw [bind_some, map_some, map_some, map_some, reverse_append, reverse_reverse]

theorem inferLoop_aligned {larger smaller out : List ℤ}
    (h : larger.length = lenSub + smaller.length) (hout : out.length = larger.length) :
    (inferLoop larger smaller lenSub out smaller.length).bind
      (fun out => some (copyDims larger lenSub out)) = aligned broadcastDim larger smaller := by
  have htake : (larger.drop lenSub).take smaller.length = larger.drop lenSub :=
    take_of_length_le (by rw [length_drop]; omega)
  rw [inferLoop_eq (Nat.le_refl _) (by omega) (by omega), aligned_eq h, htake, take_length,
    bind_map, Option.map_eq_bind]
  refine congrArg _ (funext fun r => congrArg some ?_)
  have hlen : (out.take lenSub).length = lenSub := length_take_of_le (by omega)
  dsimp only
  rw [drop_of_length_le (by omega), append_nil,
    copyDims_eq _ _ (by omega) (by rw [length_append]; omega), drop_left' hlen]

theorem broadcastInferShape_eq (self other out : List ℤ) :
    broadcastInferShape self other out = aligned broadcastDim self other := by
  unfold broadcastInferShape
  by_cases h : other.length < self.length
  · have hls : largerSmaller self other = (self, other) := if_pos h
    rw [hls]
    exact inferLoop_aligned (by omega) (setDimNum_length out _)
  · have hls : largerSmaller self other = (other, self) := if_neg h
    rw [hls, aligned_comm broadcastDim_laws]
    exact inferLoop_aligned (by omega) (setDimNum_length out _)

theorem checkBroadcastShape_eq (self other out : List ℤ) :
    checkBroadcastShape self other = (broadcastInferShape self other out).isSome := by
  unfold checkBroadcastShape broadcastInferShape
  obtain ⟨larger, smaller⟩ := largerSmaller self other
  dsimp only
  rw [checkLoop_eq larger smaller _ _ (setDimNum out larger.length)]
  cases inferLoop larger smaller (larger.length - smaller.length) (setDimNum out larger.length)
    smaller.length <;> rfl

/-- No dimension is unknown. -/
def Known (shape : List ℤ) : Prop := ∀ x ∈ shape, 0 ≤ x

instance (shape : List ℤ) : Decidable (Known shape) := inferInstanceAs (Decidable (∀ x ∈ _, _))

theorem not_isUnknownRank (h : Known shape) : Ops.isUnknownRank shape = false := by
  unfold Ops.isUnknownRank
  rw [Bool.and_eq_false_iff]
  by_cases h1 : shape.length = 1
  · have hd := h shape[0] (getElem_mem _)
    right
    rw [getDim_eq (by omega), decide_eq_false_iff_not]
    omega
  · exact .inl (decide_eq_false h1)

/-- `BroadcastShape` is the broadcast of one axis after the other, aligned at the last ones. -/
theorem broadcastShape_eq {in1 in2 : List ℤ} (h1 : Known in1) (h2 : Known in2) :
    Ops.broadcastShape in1 in2 = aligned broadcastDim in1 in2 := by
  unfold Ops.broadcastShape Ops.broadcastShapeToOutShape
  rw [not_isUnknownRank h1, not_isUnknownRank h2, if_neg (by decide)]
  split
  next h =>
    have hread : ∀ i < in1.length, getDim (setDimNum in1 in2.length) i = getDim in1 i := by
      intro i hi
      unfold getDim setDimNum
      rw [take_of_length_le (by omega), getD_append _ _ _ _ hi]
    dsimp only
    rw [growLoop_eq h2 h1 (Nat.le_refl _) (by omega) hread, aligned_comm broadcastDim_laws]
    exact inferLoop_aligned (by omega) (setDimNum_length in1 _)
  next h =>
    have hlen : (in1.drop (in1.length - in2.length)).length = in2.length := by
      rw [length_drop]
      omega
    have hcongr : overlay Ops.broadcastDim (in1.drop (in1.length - in2.length)) in2 =
        overlay broadcastDim (in1.drop (in1.length - in2.length)) in2 :=
      overlay_congr opsBroadcastDim_eq (fun x hx => h1 x (mem_of_mem_drop hx)) h2
    have hlonger : in1.length = in1.length - in2.length + in2.length := by omega
    rw [keepLoop_eq (by omega), aligned_eq hlonger,
      Nat.add_zero, hcongr, overlay_reverse hlen, Option.map_map]
    refine congrArg (Option.map · _) (funext fun r => ?_)
    rw [Function.comp_apply, reverse_reverse]

theorem aligned_known {a b r : List ℤ} (ha : Known a) (hb : Known b)
    (h : aligned broadcastDim a b = some r) : Known r := by
  obtain ⟨r', hr', rfl⟩ := Option.map_eq_some_iff.mp h
  intro x hx
  exact overlay_forall broadcastDim_nonneg (fun y hy => ha y (mem_reverse.mp hy))
    (fun y hy => hb y (mem_reverse.mp hy)) hr' x (mem_reverse.mp hx)

theorem broadcastShape_assoc {a b c : List ℤ} (ha : Known a) (hb : Known b) (hc : Known c) :
    (Ops.broadcastShape a b).bind (Ops.broadcastShape · c) =
      (Ops.broadcastShape b c).bind (Ops.broadcastShape a) := by
  have hleft : ∀ r ∈ aligned broadcastDim a b,
      Ops.broadcastShape r c = aligned broadcastDim r c := fun r hr =>
    broadcastShape_eq (aligned_known ha hb hr) hc
  have hright : ∀ r ∈ aligned broadcastDim b c,
      Ops.broadcastShape a r = aligned broadcastDim a r := fun r hr =>
    broadcastShape_eq ha (aligned_known hb hc hr)
  rw [broadcastShape_eq ha hb, broadcastShape_eq hb hc, Option.bind_congr hleft,
    Option.bind_congr hright]
  exact aligned_assoc broadcastDim_laws a b c

/-- On known shapes both inferences succeed just when the check does, give one result whatever was
in the output before, and are associative. -/
theorem broadcast_agree {a b c : List ℤ} (ha : Known a) (hb : Known b) (hc : Known c)
    (out out' : List ℤ) :
    ((∃ r, broadcastInferShape a b out = some r) ↔ checkBroadcastShape a b = true) ∧
      Ops.broadcastShape a b = broadcastInferShape a b out ∧
      broadcastInferShape a b out = broadcastInferShape b a out' ∧
      (broadcastInferShape a b out).bind (broadcastInferShape · c out') =
        (broadcastInferShape b c out).bind (broadcastInferShape a · out') ∧
      (Ops.broadcastShape a b).bind (Ops.broadcastShape · c) =
        (Ops.broadcastShape b c).bind (Ops.broadcastShape a) := by
  refine ⟨?_, ?_, ?_, ?_, broadcastShape_assoc ha hb hc⟩
  · rw [checkBroadcastShape_eq a b out, Option.isSome_iff_exists]
  · rw [broadcastShape_eq ha hb, broadcastInferShape_eq]
  · rw [broadcastInferShape_eq, broadcastInferShape_eq, aligned_comm broadcastDim_laws]
  · simp only [broadcastInferShape_eq]
    exact aligned_assoc broadcastDim_laws a b c

/-- Three shapes of three ranks. -/
theorem broadcast_agree_ranks : Known [2, 3, 2] ∧ Known [2] ∧ Known [4, 1, 1, 1] ∧
    Ops.broadcastShape [2, 3, 2] [2] = broadcastInferShape [2, 3, 2] [2] [] ∧
    broadcastInferShape [2, 3, 2] [2] [] = some [2, 3, 2] ∧
    (broadcastInferShape [2, 3, 2] [2] []).bind (broadcastInferShape · [4, 1, 1, 1] []) =
      some [4, 2, 3, 2] := by
  have ha : Known [2, 3, 2] := by decide
  have hb : Known [2] := by decide
  have hc : Known [4, 1, 1, 1] := by decide
  exact ⟨ha, hb, hc, (broadcast_agree ha hb hc [] []).2.1, by decide, by decide⟩

end OpBase.Shape
