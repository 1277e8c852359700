import OpBase.Tiling.AxisMerge
import OpBase.Tiling.BroadcastCovers

/-!
# What the simplified shape reduces

An axis of the new shape stands for a run of neighbouring axes of one kind, unit axes aside.
Runs of kept and of reduced axes take turns, and the first is a kept one, which may be
empty. A reduction combines those elements of the input that are read from one element of
the output when the output is broadcast along the reduced axes.

> `reduce_preserves_iff`: if no product of a run overflows, and an axis that is in the list
> more than once does no harm, the simplified shape reduces as the given one does; and only
> then, for a tensor with elements.

An axis `t` that is repeated does no harm where the `t`-th wide axis is reduced too, and its
second entry is not looked up in front of that of the run it belongs to.
-/

namespace OpBase.Tiling

open List OpBase.Lib OpBase.Lib.Checked
open RowMajor (ins ins_filter merged outs outs_filter select)

/-! ## Runs of one kind -/

section

variable {α β : Type} (kind : α → Bool)

/-- The runs, the first of which has kind `b` and the axes `cur` so far. -/
def kindRuns : Bool → List α → List α → List (List α)
  | _, cur, [] => [cur]
  | b, cur, a :: l =>
    if kind a = b then kindRuns b (cur ++ [a]) l else cur :: kindRuns (kind a) [a] l

theorem kindRuns_flatten : ∀ (b : Bool) (cur l : List α), (kindRuns kind b cur l).flatten = cur ++ l
  | b, cur, [] => by rw [kindRuns, flatten_cons, flatten_nil]
  | b, cur, a :: l => by
    unfold kindRuns
    split
    · rw [kindRuns_flatten, append_assoc, singleton_append]
    · rw [flatten_cons, kindRuns_flatten, singleton_append]

theorem kindRuns_map {kind' : β → Bool} {f : α → β} (h : ∀ a, kind' (f a) = kind a) :
    ∀ (b : Bool) (cur l : List α),
      kindRuns kind' b (cur.map f) (l.map f) = (kindRuns kind b cur l).map (List.map f)
  | b, cur, [] => rfl
  | b, cur, a :: l => by
    rw [map_cons, kindRuns, kindRuns, h a]
    split
    · rw [← kindRuns_map h, map_append, map_singleton]
    · rw [map_cons, ← kindRuns_map h, map_singleton]

theorem isAxisA_succ (t : ℕ) : isAxisA (t + 1) = !isAxisA t := by
  unfold isAxisA
  rw [← decide_not, decide_eq_decide]
  omega

/-- The kinds of the runs take turns. -/
theorem kindRuns_kind : ∀ {l cur : List α} {b : Bool}, (∀ a ∈ cur, kind a = b) →
    ∀ {t : ℕ} {g : List α}, (kindRuns kind b cur l)[t]? = some g →
      ∀ a ∈ g, kind a = if isAxisA t then b else !b
  | [], cur, b, hcur, t, g, hg, a, ha => by
    cases t with
    | zero =>
      obtain rfl : cur = g := Option.some.inj hg
      exact hcur a ha
    | succ t => exact absurd hg (by simp [kindRuns])
  | x :: l, cur, b, hcur, t, g, hg, a, ha => by
    unfold kindRuns at hg
    split at hg
    -- The element extends the run.
    next hx =>
      refine kindRuns_kind (fun y hy => ?_) hg a ha
      rcases mem_append.mp hy with hy | hy
      · exact hcur y hy
      · rw [mem_singleton.mp hy, hx]
    -- It opens the next run, whose kind is the other one; the tail counts from there.
    next hx =>
      cases t with
      | zero =>
        obtain rfl : cur = g := Option.some.inj hg
        exact hcur a ha
      | succ t =>
        have hsingle : ∀ y ∈ [x], kind y = kind x := fun y hy => by rw [mem_singleton.mp hy]
        have hxb : kind x = !b := Bool.eq_not_of_ne hx
        rw [kindRuns_kind hsingle hg a ha, isAxisA_succ, hxb]
        cases isAxisA t with
        | false => exact Bool.not_not b
        | true => rfl

end

/-! ## The property and its condition -/

/-- Is the axis in the list of axes to reduce? -/
def isReduced (axes : List ℤ) (k : ℕ) : Bool := decide ((k : ℤ) ∈ axes)

def size (shape : List ℤ) (k : ℕ) : ℤ := shape.getD k 1

/-- The axes of the given shape, of size one where their kind is not `kind`, with the sizes they
are read with. -/
def axisPairs (kind : Bool) (shape axes : List ℤ) : List (ℤ × ℤ) :=
  (List.range shape.length).map fun k =>
    (if isReduced axes k = kind then size shape k else 1, size shape k)

/-- The same for a simplified shape, whose kinds take turns. -/
def simplePairs (kind : Bool) (newShape : List ℤ) : List (ℤ × ℤ) :=
  newShape.zipIdx.map fun p => (if (!isAxisA p.2) = kind then p.1 else 1, p.1)

/-- The elements that a reduction combines for element `e` of the output. -/
def combined (l : List (ℤ × ℤ)) (e : ℤ) : Set ℤ :=
  {n | 0 ≤ n ∧ n < outs l ∧ select l n = e}

/-- The simplified shape reduces as the given one does. -/
structure ReducePreserves (shape axes newShape : List ℤ) : Prop where
  /-- Axis `t` stands for a run of wide axes, which are kept if `t` is even. -/
  alternates : ∃ gs : List (List ℕ), gs.flatten = wide shape ∧
    newShape = gs.map (fun g => (g.map (size shape)).prod) ∧
    ∀ (t : ℕ) (g : List ℕ), gs[t]? = some g → ∀ k ∈ g, isReduced axes k = !isAxisA t
  aProd : ins (simplePairs false newShape) = ins (axisPairs false shape axes)
  rProd : ins (simplePairs true newShape) = ins (axisPairs true shape axes)
  combines : ∀ e, combined (simplePairs false newShape) e = combined (axisPairs false shape axes) e

/-- When the simplification goes right, for sorted axes. -/
structure Simplifiable (shape axes : List ℤ) : Prop where
  /-- The new shape has a place for each wide axis, and one in front. -/
  room : 1 + (wide shape).length ≤ MAX_DIM
  fits : ∀ g ∈ kindRuns (isReduced axes) false [] (wide shape), (g.map (size shape)).prod < 2 ^ 64
  /-- Where axis `t` is repeated, the `t`-th wide axis is reduced. -/
  repeated : ∀ (t k : ℕ), (wide shape)[t]? = some k → 2 ≤ axes.count (t : ℤ) → isReduced axes k
  /-- Where, moreover, it stands in front of the first axis `k` of its run, axis `s` is repeated
  too, if `k` is the `s`-th wide axis. -/
  valid : ∀ (s t k : ℕ), s < t → (wide shape)[s]? = some k →
    (∀ l, 0 < s → (wide shape)[s - 1]? = some l → ¬ isReduced axes l) →
    (∀ u, s ≤ u → u ≤ t → ∃ l, (wide shape)[u]? = some l ∧ isReduced axes l) →
    2 ≤ axes.count (t : ℤ) → t < k → 2 ≤ axes.count (s : ℤ)

/-! ## What the code computes -/

/-- Sizes of a tensor. -/
def TensorSizes (shape : List ℤ) : Prop := ∀ d ∈ shape, 0 ≤ d ∧ d < 2 ^ 63

theorem TensorSizes.size {shape : List ℤ} (h : TensorSizes shape) (k : ℕ) :
    0 ≤ size shape k ∧ size shape k < 2 ^ 63 := by
  unfold Tiling.size
  by_cases hk : k < shape.length
  · rw [getD_eq_getElem _ _ hk]
    exact h _ (getElem_mem hk)
  · rw [getD_eq_default _ _ (not_lt.mp hk)]
    decide

/-- The wide axes with the kinds that the code takes them for. -/
def marks (shape axes : List ℤ) : List (Bool × ℤ) :=
  (wide shape).zipIdx.map fun p =>
    (decide (0 < axes.count (p.1 : ℤ) ∨ 2 ≤ axes.count (p.2 : ℤ)), size shape p.1)

theorem marked_getElem? (axes : List ℤ) : ∀ (dims : List ℤ) (j t : ℕ),
    (marked axes j dims)[t]? = dims[t]?.map fun d => (decide (((j + t : ℕ) : ℤ) ∈ axes), d)
  | [], _, _ => rfl
  | d :: dims, j, 0 => rfl
  | d :: dims, j, t + 1 => by
    rw [marked, getElem?_cons_succ, getElem?_cons_succ, marked_getElem? axes dims,
      Nat.add_right_comm, Nat.add_assoc]

theorem marks_getElem? (shape axes : List ℤ) (t : ℕ) :
    (marks shape axes)[t]? = (wide shape)[t]?.map fun k : ℕ =>
      (decide (0 < axes.count (k : ℤ) ∨ 2 ≤ axes.count (t : ℤ)), size shape k) := by
  unfold marks
  rw [getElem?_map, getElem?_zipIdx, Option.map_map, Nat.zero_add]
  rfl

variable {shape axes : List ℤ}

theorem marked_eq_marks (hs : TensorSizes shape) :
    marked (blocks shape fun k => axes.count (k : ℤ)) 1 ((wideSizes shape).map uint64) =
      marks shape axes := by
  refine ext_getElem? fun t => ?_
  rw [marked_getElem?, marks_getElem?, wideSizes, map_map, getElem?_map, Option.map_map]
  cases ht : (wide shape)[t]? with
  | none => rfl
  | some k =>
    have hsize := hs.size k
    have hmark : ((1 + t : ℕ) : ℤ) = t + 1 := by omega
    show some (decide (((1 + t : ℕ) : ℤ) ∈ blocks shape _), uint64 (size shape k)) =
      some (decide (0 < axes.count (k : ℤ) ∨ 2 ≤ axes.count (t : ℤ)), size shape k)
    rw [uint64_eq hsize.1 (by omega), hmark, decide_eq_decide.mpr (mem_blocks_iff ht)]

theorem zero_not_mem_blocks (shape : List ℤ) (c : ℕ → ℕ) : (0 : ℤ) ∉ blocks shape c := by
  intro h
  obtain ⟨k, -, hk⟩ := mem_flatMap.mp h
  rcases mem_block.mp hk with ⟨-, -, heq⟩ | ⟨-, heq⟩
  · have : 0 < position shape k := Nat.succ_pos _
    omega
  · omega

theorem transformShape_eq_ok {shape axes r : List ℤ} (h : SortedAxes shape axes)
    (hs : TensorSizes shape) :
    transformShape shape axes = .ok r ↔ 1 + (wide shape).length ≤ MAX_DIM ∧
      Valid (blocks shape fun k => axes.count (k : ℤ)) false 0 1 (marks shape axes) ∧
      r = runProducts false 1 (marks shape axes) := by
  have hmerge : (∃ axes', mergeAxis (blocks shape fun k => axes.count (k : ℤ))
      (1 :: (wideSizes shape).map uint64) = .ok (r, axes')) ↔ _ :=
    mergeAxis_iff (zero_not_mem_blocks shape _)
  rw [marked_eq_marks hs] at hmerge
  rw [← hmerge]
  unfold transformShape
  rw [eliminateOne_eq h]
  by_cases hroom : 1 + (wide shape).length ≤ MAX_DIM
  · rw [if_pos hroom, ok_bind]
    dsimp only
    constructor
    · intro hrun
      obtain ⟨⟨r', axes'⟩, hm, ⟨⟩⟩ := bind_eq_ok.mp hrun
      exact ⟨hroom, axes', hm⟩
    · intro ⟨_, axes', hm⟩
      rw [hm, ok_bind]
  · rw [if_neg hroom]
    exact iff_of_false (fun hrun => nomatch hrun) fun hm => hroom hm.1

theorem runProducts_eq : ∀ {l cur : List (Bool × ℤ)} {b : Bool},
    (∀ a ∈ l, 0 ≤ a.2 ∧ a.2 < 2 ^ 64) →
    runProducts b (uint64 (cur.map Prod.snd).prod) l =
      (kindRuns Prod.fst b cur l).map fun g => uint64 (g.map Prod.snd).prod
  | [], cur, b, _ => rfl
  | a :: l, cur, b, h => by
    have hl : ∀ x ∈ l, 0 ≤ x.2 ∧ x.2 < 2 ^ 64 := fun x hx => h x (mem_cons_of_mem a hx)
    unfold runProducts kindRuns
    split
    · rw [← runProducts_eq hl, map_append, prod_append, map_singleton, prod_singleton]
      congr 1
      unfold uint64
      rw [Int.mul_emod, Int.emod_emod, ← Int.mul_emod]
    · have ha := h a mem_cons_self
      rw [map_cons, ← runProducts_eq hl, map_singleton, prod_singleton, uint64_eq ha.1 ha.2]

/-! ## The condition, read off the code -/

/-- The wide axes with the kinds that they have. -/
def items (shape axes : List ℤ) : List (Bool × ℤ) :=
  (wide shape).map fun k => (isReduced axes k, size shape k)

theorem items_getElem? (shape axes : List ℤ) (t : ℕ) :
    (items shape axes)[t]? = (wide shape)[t]?.map fun k => (isReduced axes k, size shape k) :=
  getElem?_map ..

theorem isReduced_iff_count {axes : List ℤ} {k : ℕ} :
    isReduced axes k ↔ 0 < axes.count (k : ℤ) := by
  rw [isReduced, decide_eq_true_eq, count_pos_iff]

theorem marks_eq_items
    (h : ∀ (t k : ℕ), (wide shape)[t]? = some k → 2 ≤ axes.count (t : ℤ) → isReduced axes k) :
    marks shape axes = items shape axes := by
  refine ext_getElem? fun t => ?_
  rw [marks_getElem?, items_getElem?]
  cases ht : (wide shape)[t]? with
  | none => rfl
  | some k =>
    have hk : (0 < axes.count (k : ℤ) ∨ 2 ≤ axes.count (t : ℤ)) ↔ isReduced axes k := by
      rw [← isReduced_iff_count]
      exact or_iff_left_of_imp (h t k ht)
    refine congrArg some (Prod.ext ?_ rfl)
    exact Bool.eq_iff_iff.mpr (decide_eq_true_iff.trans hk)

theorem allReduced_items {s t : ℕ} :
    AllReduced (items shape axes) s t ↔
      ∀ u, s ≤ u → u ≤ t → ∃ l, (wide shape)[u]? = some l ∧ isReduced axes l := by
  have hat : ∀ u : ℕ, (∃ a : Bool × ℤ, (items shape axes)[u]? = some a ∧ a.1 = true) ↔
      ∃ l, (wide shape)[u]? = some l ∧ isReduced axes l := by
    intro u
    rw [items_getElem?]
    constructor
    · intro ⟨a, ha, h⟩
      obtain ⟨l, hl, rfl⟩ := Option.map_eq_some_iff.mp ha
      exact ⟨l, hl, h⟩
    · intro ⟨l, hl, h⟩
      exact ⟨_, Option.map_eq_some_iff.mpr ⟨l, hl, rfl⟩, h⟩
  exact forall_congr' fun u => forall₂_congr fun _ _ => hat u

theorem starts_items : ∀ {s : ℕ}, Starts false (items shape axes) s ↔
    ∀ l, 0 < s → (wide shape)[s - 1]? = some l → ¬ isReduced axes l
  | 0 => iff_of_true rfl fun _ h => absurd h (lt_irrefl 0)
  | s + 1 => by
    show (∀ a, (items shape axes)[s]? = some a → a.1 = false) ↔ _
    rw [items_getElem?, Nat.add_sub_cancel]
    constructor
    · intro h l _ hl
      have := h (isReduced axes l, size shape l) (Option.map_eq_some_iff.mpr ⟨l, hl, rfl⟩)
      exact Bool.eq_false_iff.mp this
    · intro h a ha
      obtain ⟨l, hl, rfl⟩ := Option.map_eq_some_iff.mp ha
      exact Bool.eq_false_iff.mpr (h l (Nat.succ_pos s) hl)

/-- No erased entry is asked for, in terms of the axes that are named twice. -/
theorem valid_items :
    Valid (blocks shape fun k => axes.count (k : ℤ)) false 0 1 (items shape axes) ↔
      ∀ (s t k : ℕ), s < t → (wide shape)[s]? = some k →
        (∀ l, 0 < s → (wide shape)[s - 1]? = some l → ¬ isReduced axes l) →
        (∀ u, s ≤ u → u ≤ t → ∃ l, (wide shape)[u]? = some l ∧ isReduced axes l) →
        2 ≤ axes.count (t : ℤ) → t < k → 2 ≤ axes.count (s : ℤ) := by
  rw [valid_iff]
  have hcast : ∀ u : ℕ, ((1 + u : ℕ) : ℤ) = u + 1 := fun u => by omega
  constructor
  · intro ⟨_, h⟩ s t k hst hs hstart hall hct htk
    have hnot := h s t hst (starts_items.mpr hstart) (allReduced_items.mpr hall)
    obtain ⟨l, hl, hred⟩ := hall s le_rfl hst.le
    obtain rfl : l = k := Option.some.inj (hl.symm.trans hs)
    have hmem := (mem_blocks_iff (c := fun k => axes.count (k : ℤ)) hs).mpr
      (Or.inl (isReduced_iff_count.mp hred))
    rw [hcast, hcast, mem_takeWhile_iff hst hs hmem] at hnot
    by_contra hcs
    exact hnot ⟨hct, htk, not_le.mp hcs⟩
  · refine fun h => ⟨(absurd · Bool.false_ne_true), fun s t hst hstart hall hin => ?_⟩
    rw [allReduced_items] at hall
    obtain ⟨k, hs, hred⟩ := hall s le_rfl hst.le
    have hmem := (mem_blocks_iff (c := fun k => axes.count (k : ℤ)) hs).mpr
      (Or.inl (isReduced_iff_count.mp hred))
    rw [hcast, hcast, mem_takeWhile_iff hst hs hmem] at hin
    have := h s t k hst hs (starts_items.mp hstart) hall hin.1 hin.2.1
    omega

/-! ## Groups of axes that take turns -/

section

variable {α : Type} {kind : α → Bool} {size : α → ℤ} {b : Bool} {gs : List (List α)}

/-- An axis with size one unless it has the kind `b`. -/
def pairOf (b : Bool) (kind : α → Bool) (size : α → ℤ) (a : α) : ℤ × ℤ :=
  (if kind a = b then size a else 1, size a)

/-- The axes of each group have one kind, and the kinds take turns. -/
def TakeTurns (kind : α → Bool) (gs : List (List α)) : Prop :=
  ∀ (t : ℕ) (g : List α), gs[t]? = some g → ∀ a ∈ g, kind a = !isAxisA t

theorem kindRuns_takeTurns (kind : α → Bool) (l : List α) :
    TakeTurns kind (kindRuns kind false [] l) := by
  intro t g hg a ha
  rw [kindRuns_kind kind (fun x hx => absurd hx not_mem_nil) hg a ha]
  cases isAxisA t <;> rfl

theorem merged_pairOf {t : ℕ} {g : List α} (h : ∀ a ∈ g, kind a = !isAxisA t) :
    merged (g.map (pairOf b kind size)) =
      (if (!isAxisA t) = b then (g.map size).prod else 1, (g.map size).prod) := by
  unfold merged ins outs
  rw [map_map, map_map]
  refine Prod.ext ?_ rfl
  dsimp only
  split
  next ht =>
    refine congrArg List.prod (map_congr_left fun a ha => ?_)
    exact if_pos ((h a ha).trans ht)
  next ht =>
    refine prod_eq_one fun x hx => ?_
    obtain ⟨a, ha, rfl⟩ := mem_map.mp hx
    exact if_neg fun hc => ht ((h a ha).symm.trans hc)

theorem simplePairs_eq (h : TakeTurns kind gs) :
    simplePairs b (gs.map fun g => (g.map size).prod) =
      (gs.map (List.map (pairOf b kind size))).map merged := by
  unfold simplePairs
  refine ext_getElem? fun t => ?_
  rw [getElem?_map, getElem?_zipIdx, getElem?_map, getElem?_map,
    getElem?_map, Option.map_map, Option.map_map, Option.map_map, Nat.zero_add]
  cases hg : gs[t]? with
  | none => rfl
  | some g => exact congrArg some (merged_pairOf (h t g hg)).symm

theorem ins_simplePairs (h : TakeTurns kind gs) :
    ins (simplePairs b (gs.map fun g => (g.map size).prod)) =
      ins (gs.flatten.map (pairOf b kind size)) := by
  rw [simplePairs_eq h, RowMajor.ins_merged, map_flatten]

theorem uniform_pairOf (h : TakeTurns kind gs) :
    ∀ r ∈ gs.map (List.map (pairOf false kind size)), RowMajor.Uniform r := by
  intro r hr
  obtain ⟨g, hg, rfl⟩ := mem_map.mp hr
  obtain ⟨t, ht⟩ := getElem?_of_mem hg
  cases hA : isAxisA t with
  | true =>
    refine Or.inl fun p hp => ?_
    obtain ⟨a, ha, rfl⟩ := mem_map.mp hp
    refine if_pos ?_
    rw [h t g ht a ha, hA]
    rfl
  | false =>
    refine Or.inr fun p hp => ?_
    obtain ⟨a, ha, rfl⟩ := mem_map.mp hp
    refine if_neg ?_
    rw [h t g ht a ha, hA]
    decide

end

theorem filter_axisPairs (b : Bool) (shape axes : List ℤ) :
    (axisPairs b shape axes).filter (· ≠ (1, 1)) =
      (wide shape).map (pairOf b (isReduced axes) (size shape)) := by
  have hpair : ∀ k, pairOf b (isReduced axes) (size shape) k ≠ (1, 1) ↔ isWide shape k = true := by
    intro k
    unfold pairOf isWide
    rw [decide_eq_true_eq, not_iff_not, Prod.mk.injEq]
    refine ⟨fun h => h.2, fun h => ⟨?_, h⟩⟩
    split
    · exact h
    · rfl
  unfold axisPairs wide
  rw [filter_map]
  refine congrArg _ (filter_congr fun k _ => ?_)
  exact Bool.eq_iff_iff.mpr (decide_eq_true_iff.trans (hpair k))

/-- If the groups take turns in being reduced, their products preserve the reduction. -/
theorem TakeTurns.preserves {gs : List (List ℕ)} (hs : TensorSizes shape)
    (hflat : gs.flatten = wide shape) (h : TakeTurns (isReduced axes) gs) :
    ReducePreserves shape axes (gs.map fun g => (g.map (size shape)).prod) := by
  have hins : ∀ b, ins (simplePairs b (gs.map fun g => (g.map (size shape)).prod)) =
      ins (axisPairs b shape axes) := by
    intro b
    rw [ins_simplePairs h, hflat, ← filter_axisPairs, ins_filter]
  refine ⟨⟨gs, hflat, rfl, h⟩, hins false, hins true, fun e => ?_⟩
  have hpairs : (gs.map (List.map (pairOf false (isReduced axes) (size shape)))).flatten =
      (axisPairs false shape axes).filter (· ≠ (1, 1)) := by
    rw [filter_axisPairs, ← map_flatten, hflat]
  have houts : outs (simplePairs false (gs.map fun g => (g.map (size shape)).prod)) =
      outs (axisPairs false shape axes) := by
    rw [simplePairs_eq h, RowMajor.outs_merged, hpairs, outs_filter]
  ext n
  unfold combined
  rw [Set.mem_ofPred_eq, Set.mem_ofPred_eq, houts]
  refine and_congr_right fun h0 => and_congr_right fun hn => ?_
  -- there is an element, so no size is zero
  have hpos : ∀ p ∈ axisPairs false shape axes, 0 < p.2 := by
    intro p hp
    have hnn : 0 ≤ p.2 := by
      obtain ⟨k, -, rfl⟩ := mem_map.mp hp
      exact (hs.size k).1
    refine lt_of_le_of_ne hnn fun hz => ?_
    have : outs (axisPairs false shape axes) = 0 :=
      prod_eq_zero (mem_map.mpr ⟨p, hp, hz.symm⟩)
    omega
  have hsel : select (simplePairs false (gs.map fun g => (g.map (size shape)).prod)) n =
      select (axisPairs false shape axes) n := by
    rw [simplePairs_eq h, RowMajor.select_merged (uniform_pairOf h), hpairs,
      RowMajor.select_filter hpos h0 hn]
    · rw [hpairs]
      exact fun p hp => hpos p (mem_of_mem_filter hp)
    · exact h0
    · rwa [hpairs, outs_filter]
  rw [hsel]

/-! ## The condition is enough -/

theorem items_kindRuns (shape axes : List ℤ) :
    kindRuns Prod.fst false [] (items shape axes) =
      (kindRuns (isReduced axes) false [] (wide shape)).map
        (List.map fun k => (isReduced axes k, size shape k)) := by
  have h : ∀ k, Prod.fst ((fun k => (isReduced axes k, size shape k)) k) = isReduced axes k :=
    fun _ => rfl
  exact kindRuns_map (isReduced axes) h false [] (wide shape)

theorem runProducts_marks (hs : TensorSizes shape) :
    runProducts false 1 (marks shape axes) = (kindRuns Prod.fst false [] (marks shape axes)).map
        fun g => uint64 (g.map Prod.snd).prod := by
  refine (runProducts_eq fun a ha => ?_ : runProducts false (uint64 ([].map Prod.snd).prod) _ = _)
  obtain ⟨p, -, rfl⟩ := mem_map.mp ha
  have := hs.size p.1
  exact ⟨this.1, by omega⟩

theorem Simplifiable.preserves (h : SortedAxes shape axes)
    (hs : TensorSizes shape) (hc : Simplifiable shape axes) :
    ∃ r, transformShape shape axes = .ok r ∧ ReducePreserves shape axes r := by
  have hmarks := marks_eq_items hc.repeated
  refine ⟨_, (transformShape_eq_ok h hs).mpr ⟨hc.room, ?_, rfl⟩, ?_⟩
  · rw [hmarks]
    exact valid_items.mpr hc.valid
  · have hprod : runProducts false 1 (marks shape axes) =
        (kindRuns (isReduced axes) false [] (wide shape)).map
          fun g => (g.map (size shape)).prod := by
      rw [runProducts_marks hs, hmarks, items_kindRuns, map_map]
      refine map_congr_left fun g hg => ?_
      show uint64 ((g.map _).map _).prod = _
      rw [map_map]
      exact uint64_eq (prod_nonneg fun d hd => by
        obtain ⟨k, -, rfl⟩ := mem_map.mp hd
        exact (hs.size k).1) (hc.fits g hg)
    rw [hprod]
    exact TakeTurns.preserves hs (kindRuns_flatten ..) (kindRuns_takeTurns _ _)

/-! ## The condition is needed where there are elements -/

theorem prod_le_prod {α : Type} {f p : α → ℤ} : ∀ {l : List α}, (∀ a ∈ l, 0 ≤ f a ∧ f a ≤ p a) →
    (l.map f).prod ≤ (l.map p).prod
  | [], _ => le_rfl
  | a :: l, h => by
    have hl : ∀ x ∈ l, 0 ≤ f x ∧ f x ≤ p x := fun x hx => h x (mem_cons_of_mem a hx)
    have ha := h a mem_cons_self
    rw [map_cons, map_cons, prod_cons, prod_cons]
    refine mul_le_mul ha.2 (prod_le_prod hl) (prod_nonneg fun x hx => ?_) (ha.1.trans ha.2)
    obtain ⟨b, hb, rfl⟩ := mem_map.mp hx
    exact (hl b hb).1

/-- Bounded factors with the product of their bounds are these bounds. -/
theorem eq_of_prod_eq {α : Type} {f p : α → ℤ} : ∀ {l : List α},
    (∀ a ∈ l, 0 ≤ f a ∧ f a ≤ p a ∧ 0 < p a) → (l.map f).prod = (l.map p).prod →
    ∀ a ∈ l, f a = p a
  | [], _, _ => fun _ ha => nomatch ha
  | a :: l, h, heq => by
    have hl : ∀ x ∈ l, 0 ≤ f x ∧ f x ≤ p x ∧ 0 < p x := fun x hx => h x (mem_cons_of_mem a hx)
    have ha := h a mem_cons_self
    have hle : (l.map f).prod ≤ (l.map p).prod :=
      prod_le_prod fun x hx => ⟨(hl x hx).1, (hl x hx).2.1⟩
    have hpos : 0 < (l.map p).prod := by
      refine prod_pos (fun x hx => ?_) fun h0 => ?_
      · obtain ⟨b, hb, rfl⟩ := mem_map.mp hx
        exact (hl b hb).2.2.le
      · obtain ⟨b, hb, hz⟩ := mem_map.mp h0
        exact absurd (hl b hb).2.2 (by omega)
    rw [map_cons, map_cons, prod_cons, prod_cons] at heq
    -- A smaller head could not be made up for: the tail's product is no larger either.
    have hfa : f a = p a := by
      by_contra hne
      have hlt : f a < p a := lt_of_le_of_ne ha.2.1 hne
      have h1 : f a * (l.map f).prod ≤ f a * (l.map p).prod := mul_le_mul_of_nonneg_left hle ha.1
      have h2 : f a * (l.map p).prod < p a * (l.map p).prod := mul_lt_mul_of_pos_right hlt hpos
      omega
    have hrest : (l.map f).prod = (l.map p).prod := by
      rw [hfa] at heq
      exact mul_left_cancel₀ ha.2.2.ne' heq
    intro x hx
    rcases mem_cons.mp hx with rfl | hx
    · exact hfa
    · exact eq_of_prod_eq hl hrest x hx

theorem ins_mul_ins (r : List ℤ) :
    ins (simplePairs false r) * ins (simplePairs true r) = r.prod := by
  unfold ins simplePairs
  rw [map_map, map_map, ← prod_map_mul]
  have hr : r.zipIdx.map Prod.fst = r := zipIdx_map_fst 0 r
  conv_rhs => rw [← hr]
  refine congrArg List.prod (map_congr_left fun p _ => ?_)
  show (if (!isAxisA p.2) = false then p.1 else 1) * (if (!isAxisA p.2) = true then p.1 else 1) = _
  cases isAxisA p.2 <;> simp

theorem ins_axisPairs_mul (shape axes : List ℤ) :
    ins (axisPairs false shape axes) * ins (axisPairs true shape axes) =
      ((wide shape).map (size shape)).prod := by
  rw [← ins_filter (axisPairs false shape axes),
    ← ins_filter (axisPairs true shape axes), filter_axisPairs, filter_axisPairs]
  unfold ins
  rw [map_map, map_map, ← prod_map_mul]
  refine congrArg List.prod (map_congr_left fun k _ => ?_)
  show (if isReduced axes k = false then _ else 1) * (if isReduced axes k = true then _ else 1) = _
  cases isReduced axes k <;> simp

theorem uint64_le {z : ℤ} (h : 0 ≤ z) : uint64 z ≤ z := by
  unfold uint64
  omega

theorem size_wide {shape : List ℤ} (hs : TensorSizes shape) (h0 : 0 ∉ shape) {k : ℕ}
    (hk : k ∈ wide shape) : 2 ≤ size shape k := by
  obtain ⟨hlt, hw⟩ := mem_filter.mp hk
  have hlt := mem_range.mp hlt
  have hne : size shape k ≠ 1 := of_decide_eq_true hw
  have hz : size shape k ≠ 0 := fun h => by
    unfold size at h
    rw [getD_eq_getElem _ _ hlt] at h
    exact h0 (h ▸ getElem_mem hlt)
  have := (hs.size k).1
  omega

section

variable {shape axes r : List ℤ}

/-- If the result preserves the reduction, no product of a run wrapped. -/
theorem ReducePreserves.exact (hs : TensorSizes shape) (h0 : 0 ∉ shape)
    (hr : r = runProducts false 1 (marks shape axes)) (hp : ReducePreserves shape axes r) :
    ∀ g ∈ kindRuns Prod.fst false [] (marks shape axes),
      uint64 (g.map Prod.snd).prod = (g.map Prod.snd).prod := by
  have hflat : (kindRuns Prod.fst false [] (marks shape axes)).flatten = marks shape axes :=
    kindRuns_flatten ..
  have hsize : ∀ g ∈ kindRuns Prod.fst false [] (marks shape axes), 0 < (g.map Prod.snd).prod := by
    intro g hg
    have hall : ∀ d ∈ g.map Prod.snd, 0 < d := by
      intro d hd
      obtain ⟨a, ha, rfl⟩ := mem_map.mp hd
      have hmem : a ∈ marks shape axes := hflat ▸ mem_flatten.mpr ⟨g, hg, ha⟩
      obtain ⟨p, hp, rfl⟩ := mem_map.mp hmem
      have := size_wide hs h0 (fst_mem_of_mem_zipIdx hp)
      show 0 < size shape p.1
      omega
    exact prod_pos (fun d hd => (hall d hd).le) fun hz => absurd (hall 0 hz) (lt_irrefl 0)
  -- No stored size exceeds the real one, and the products of both agree.
  refine eq_of_prod_eq (fun g hg => ⟨Int.emod_nonneg _ (by decide), uint64_le (hsize g hg).le,
    hsize g hg⟩) ?_
  have hprod : r.prod = ((wide shape).map (size shape)).prod := by
    rw [← ins_mul_ins, hp.aProd, hp.rProd, ins_axisPairs_mul]
  have hmarks : (marks shape axes).map Prod.snd = (wide shape).map (size shape) := by
    have hfst : (wide shape).zipIdx.map Prod.fst = wide shape := zipIdx_map_fst 0 _
    conv_rhs => rw [← hfst]
    rw [marks, map_map, map_map]
    rfl
  rw [← runProducts_marks hs, ← hr, hprod, ← hmarks]
  conv_lhs => rw [← hflat]
  rw [map_flatten, prod_flatten, map_map]
  rfl

/-- If the result preserves the reduction, the marked axes are the reduced ones. -/
theorem ReducePreserves.marks_eq (hs : TensorSizes shape) (h0 : 0 ∉ shape)
    (hr : r = runProducts false 1 (marks shape axes)) (hp : ReducePreserves shape axes r) :
    ∀ p ∈ (wide shape).zipIdx,
      decide (0 < axes.count (p.1 : ℤ) ∨ 2 ≤ axes.count (p.2 : ℤ)) = isReduced axes p.1 := by
  have hexact : r = (kindRuns Prod.fst false [] (marks shape axes)).map
      fun g => (g.map Prod.snd).prod := by
    rw [hr, runProducts_marks hs]
    exact map_congr_left (hp.exact hs h0 hr)
  have hflat : (kindRuns Prod.fst false [] (marks shape axes)).flatten = marks shape axes :=
    kindRuns_flatten ..
  have hA := hp.aProd
  have hfst : (wide shape).zipIdx.map Prod.fst = wide shape := zipIdx_map_fst 0 _
  rw [hexact, ins_simplePairs (kindRuns_takeTurns _ _), hflat,
    ← ins_filter (axisPairs false shape axes), filter_axisPairs, marks] at hA
  conv_rhs at hA => rw [← hfst]
  unfold ins at hA
  rw [map_map, map_map, map_map, map_map] at hA
  have hfactors : ∀ p ∈ (wide shape).zipIdx,
      (if decide (0 < axes.count (p.1 : ℤ) ∨ 2 ≤ axes.count (p.2 : ℤ)) = false
        then size shape p.1 else 1) =
      if isReduced axes p.1 = false then size shape p.1 else 1 := by
    refine eq_of_prod_eq (fun p hp => ?_) hA
    have hsize := size_wide hs h0 (fst_mem_of_mem_zipIdx hp)
    -- a reduced axis is always taken for one
    have himp : isReduced axes p.1 = true →
        decide (0 < axes.count (p.1 : ℤ) ∨ 2 ≤ axes.count (p.2 : ℤ)) = true :=
      fun h => decide_eq_true (Or.inl (isReduced_iff_count.mp h))
    cases hred : isReduced axes p.1 with
    | true =>
      rw [himp hred, if_neg (by decide)]
      decide
    | false =>
      rw [if_pos rfl]
      split
      · omega
      · omega
  intro p hp
  have hsize := size_wide hs h0 (fst_mem_of_mem_zipIdx hp)
  have h := hfactors p hp
  cases hred : isReduced axes p.1 with
  | true => exact decide_eq_true (Or.inl (isReduced_iff_count.mp hred))
  | false =>
    rw [hred, if_pos rfl] at h
    by_contra hne
    rw [Bool.not_eq_false] at hne
    rw [hne, if_neg (by decide)] at h
    omega

theorem ReducePreserves.simplifiable (h : SortedAxes shape axes) (hs : TensorSizes shape)
    (h0 : 0 ∉ shape) (hrun : transformShape shape axes = .ok r)
    (hp : ReducePreserves shape axes r) : Simplifiable shape axes := by
  obtain ⟨hroom, hvalid, hr⟩ := (transformShape_eq_ok h hs).mp hrun
  have hrep : ∀ (t k : ℕ), (wide shape)[t]? = some k → 2 ≤ axes.count (t : ℤ) →
      isReduced axes k := by
    intro t k ht hc
    have := hp.marks_eq hs h0 hr (k, t) (mem_zipIdx_iff_getElem?.mpr ht)
    rw [← this]
    exact decide_eq_true (Or.inr hc)
  have hmarks := marks_eq_items hrep
  refine ⟨hroom, fun g hg => ?_, hrep, valid_items.mp (hmarks ▸ hvalid)⟩
  have hexact := hp.exact hs h0 hr
  rw [hmarks, items_kindRuns] at hexact
  have hg' := hexact _ (mem_map.mpr ⟨g, hg, rfl⟩)
  rw [map_map] at hg'
  have hlt : uint64 (g.map (size shape)).prod < 2 ^ 64 := Int.emod_lt_of_pos _ (by decide)
  exact lt_of_eq_of_lt hg'.symm hlt

end

/-- What `ParamCheck` accepts is simplified rightly under the condition, and for a tensor with
elements under no other. -/
theorem reduce_preserves_iff {dtypeSize : ℤ} {shape axes sorted : List ℤ}
    (h : paramCheck dtypeSize shape axes = .ok sorted) (hs : TensorSizes shape) :
    (Simplifiable shape sorted →
      ∃ r, transformShape shape sorted = .ok r ∧ ReducePreserves shape sorted r) ∧
    (0 ∉ shape → (∃ r, transformShape shape sorted = .ok r ∧ ReducePreserves shape sorted r) →
      Simplifiable shape sorted) :=
  have hsorted := paramCheck_eq_ok h
  ⟨Simplifiable.preserves hsorted hs,
    fun h0 ⟨_, hrun, hp⟩ => hp.simplifiable hsorted hs h0 hrun⟩

/-- A matrix of two rows is reduced along its rows. -/
theorem reduce_preserves_rows :
    ∃ r, transformShape [2, 3] [1] = .ok r ∧ ReducePreserves [2, 3] [1] r := by
  have h : paramCheck 4 [2, 3] [1] = .ok [1] := rfl
  have hs : TensorSizes [2, 3] := by unfold TensorSizes; decide
  -- nothing is repeated in a list of one
  have hcount : ∀ a : ℤ, ¬ 2 ≤ List.count a [1] := fun a h => by
    have := count_le_length (a := a) (l := [1])
    exact absurd (h.trans this) (by decide)
  exact (reduce_preserves_iff h hs).1
    ⟨by decide, by decide, fun t _ _ ht => absurd ht (hcount t),
      fun _ t _ _ _ _ _ ht => absurd ht (hcount t)⟩

/-- The unit axis is in the list twice. Its second entry comes to stand for the axis of size
four, which is kept. -/
theorem reduce_repeated_axis :
    paramCheck 4 [1, 4] [0, 0] = .ok [0, 0] ∧ transformShape [1, 4] [0, 0] = .ok [1, 4] ∧
      ¬ ReducePreserves [1, 4] [0, 0] [1, 4] := by
  refine ⟨rfl, rfl, fun h => ?_⟩
  exact absurd h.aProd (by decide)

end OpBase.Tiling
