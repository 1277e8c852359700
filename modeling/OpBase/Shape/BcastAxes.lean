import OpBase.Shape.Bcast
import OpBase.Lib.RowMajor

/-!
# The axes of two broadcast shapes

What the constructor of `Bcast` and `GenerateBcastInfo` do, in terms of the axes of the two
shapes, aligned at the last ones and written from the first to the last. The loop of `Init`
leaves the axes of size one out and multiplies the others together, neighbours of one kind;
it goes from the last axis to the first, so that its vectors are made by recursion over the
axes (`run_loop`).

> `checksAgree_iff`: the two checks have the same verdict but where a 0 meets a 1.
-/

namespace OpBase.Shape.Bcast

open List

/-! ## Aligning -/

/-- The shape with axes of size one in front, `n` axes in all. -/
def lengthened (n : ℕ) (shape : List ℤ) : List ℤ := List.replicate (n - shape.length) 1 ++ shape

/-- The axes of two shapes, aligned at the last ones. -/
def axes (x y : List ℤ) : List (ℤ × ℤ) :=
  (lengthened (max x.length y.length) x).zip (lengthened (max x.length y.length) y)

theorem length_lengthened {n : ℕ} {shape : List ℤ} (h : shape.length ≤ n) :
    (lengthened n shape).length = n := by
  unfold lengthened
  rw [length_append, length_replicate]
  omega

theorem lengthened_self (shape : List ℤ) : lengthened shape.length shape = shape := by
  unfold lengthened
  rw [Nat.sub_self]
  rfl

theorem reverse_resize (n : ℕ) (shape : List ℤ) :
    (resize n shape.reverse).reverse = lengthened n shape := by
  unfold resize lengthened
  rw [reverse_append, reverse_replicate, reverse_reverse, length_reverse]

theorem resize_self {n : ℕ} {shape : List ℤ} (h : n = shape.length) : resize n shape = shape := by
  unfold resize
  rw [h, Nat.sub_self]
  exact append_nil _

theorem zip_reverse {α β : Type*} {l : List α} {r : List β} (h : l.length = r.length) :
    l.reverse.zip r.reverse = (l.zip r).reverse := by
  rw [zip_eq_zipWith, zip_eq_zipWith, reverse_zipWith h]

variable (x y : List ℤ) {a : ℤ × ℤ} {s : State × Bcast}

theorem reversedAxes_eq : reversedAxes x y = (axes x y).reverse := by
  have hx := length_lengthened (Nat.le_max_left x.length y.length)
  have hy := length_lengthened (Nat.le_max_right x.length y.length)
  unfold axes
  rw [← zip_reverse (hx.trans hy.symm), ← reverse_resize, ← reverse_resize, reverse_reverse,
    reverse_reverse]
  unfold reversedAxes
  dsimp only
  rw [length_reverse, length_reverse]
  by_cases h : y.length < x.length
  · rw [if_pos h, Nat.max_eq_left h.le, resize_self (length_reverse).symm]
  · rw [if_neg h, Nat.max_eq_right (Nat.not_lt.mp h),
      resize_self (n := y.length) (length_reverse).symm]

/-! ## One axis -/

/-- The sizes broadcast. -/
def Compat (a : ℤ × ℤ) : Prop := a.1 = a.2 ∨ a.1 = 1 ∨ a.2 = 1

instance (a : ℤ × ℤ) : Decidable (Compat a) := inferInstanceAs (Decidable (_ ∨ _))

/-- The size of the broadcast: a one gives way to the other size. -/
def out (a : ℤ × ℤ) : ℤ := if a.1 = 1 then a.2 else a.1

/-- Which of the inputs repeats along the axis. -/
def kind (a : ℤ × ℤ) : State :=
  if a.1 = a.2 then .same else if a.1 = 1 then .xOne else .yOne

/-- The entries of an axis. -/
def dimOf (a : ℤ × ℤ) : Dim :=
  ⟨out a, a.1, if kind a = .xOne then a.2 else 1, a.2, if kind a = .yOne then a.1 else 1⟩

theorem axisDim_compat (h : Compat a) : axisDim a.1 a.2 = some (kind a, dimOf a) := by
  obtain ⟨x, y⟩ := a
  unfold axisDim dimOf kind out
  dsimp only
  by_cases hxy : x = y
  · simp [hxy]
  · by_cases hx : x = 1
    · subst hx
      simp [hxy]
    · obtain rfl : y = 1 := (h.resolve_left hxy).resolve_left hx
      simp [hx]

theorem axisDim_not_compat (h : ¬ Compat a) : axisDim a.1 a.2 = none := by
  unfold Compat at h
  push Not at h
  unfold axisDim
  rw [if_neg h.1, if_neg h.2.1, if_neg h.2.2]

/-! ## Groups of axes -/

/-- An axis in front of groups of axes: into the first one, if that is of its kind. -/
def pushAxis (a : ℤ × ℤ) : List (List (ℤ × ℤ)) → List (List (ℤ × ℤ))
  | (b :: g) :: gs => if kind a = kind b then (a :: b :: g) :: gs else [a] :: (b :: g) :: gs
  | gs => [a] :: gs

/-- Neighbouring axes of one kind together, without the axes of size one. -/
def groups : List (ℤ × ℤ) → List (List (ℤ × ℤ))
  | [] => []
  | a :: l => if a = (1, 1) then groups l else pushAxis a (groups l)

/-- The kind of the first group. -/
def headKind : List (List (ℤ × ℤ)) → State
  | (b :: _) :: _ => kind b
  | _ => .unknown

/-- The entries of a group. -/
def merged : List (ℤ × ℤ) → Dim
  | [] => ⟨1, 1, 1, 1, 1⟩
  | a :: g => mulDim (merged g) (dimOf a)

/-- An axis joins the first group, of its kind, or starts one of its own. -/
theorem pushAxis_cases (a : ℤ × ℤ) (gs : List (List (ℤ × ℤ))) (hne : [] ∉ gs) :
    (∃ b g rest, gs = (b :: g) :: rest ∧ kind a = kind b ∧
      pushAxis a gs = (a :: b :: g) :: rest) ∨
    (headKind gs ≠ kind a ∧ pushAxis a gs = [a] :: gs) := by
  have hunknown : State.unknown ≠ kind a := by
    unfold kind
    split
    · decide
    · split <;> decide
  match gs, hne with
  | [], _ => exact Or.inr ⟨hunknown, rfl⟩
  | [] :: _, hne => exact absurd mem_cons_self hne
  | (b :: g) :: rest, _ =>
    by_cases h : kind a = kind b
    · exact Or.inl ⟨b, g, rest, rfl, h, if_pos h⟩
    · exact Or.inr ⟨fun hc => h hc.symm, if_neg h⟩

theorem nil_not_mem_groups : ∀ l : List (ℤ × ℤ), [] ∉ groups l
  | [] => not_mem_nil
  | a :: l => by
    have ih := nil_not_mem_groups l
    rw [groups]
    split
    · exact ih
    · rcases pushAxis_cases a (groups l) ih with ⟨b, g, rest, hgs, -, hpush⟩ | ⟨-, hpush⟩
      · rw [hpush]
        rw [hgs] at ih
        simpa using ih
      · rw [hpush]
        simpa using ih

/-- The groups are the axes in order, without those of size one. -/
theorem flatten_groups : ∀ l : List (ℤ × ℤ), (groups l).flatten = l.filter (· ≠ (1, 1))
  | [] => rfl
  | a :: l => by
    have ih := flatten_groups l
    rw [groups]
    by_cases ha : a = (1, 1)
    · rw [if_pos ha, ih, filter_cons_of_neg (by simp [ha])]
    · rw [if_neg ha, filter_cons_of_pos (by simp [ha])]
      rcases pushAxis_cases a (groups l) (nil_not_mem_groups l) with
        ⟨b, g, rest, hgs, -, hpush⟩ | ⟨-, hpush⟩
      · rw [hpush, ← ih, hgs]
        rfl
      · rw [hpush, ← ih]
        rfl

/-- The axes of a group are of one kind. -/
theorem kind_groups : ∀ {l : List (ℤ × ℤ)}, ∀ g ∈ groups l, ∀ a ∈ g, ∀ b ∈ g, kind a = kind b
  | [], g, hg => absurd hg not_mem_nil
  | c :: l, g, hg => by
    have ih := @kind_groups l
    rw [groups] at hg
    split at hg
    · exact ih g hg
    · rcases pushAxis_cases c (groups l) (nil_not_mem_groups l) with
        ⟨b, g', rest, hgs, hkind, hpush⟩ | ⟨-, hpush⟩
      · rw [hpush] at hg
        rw [hgs] at ih
        rcases mem_cons.mp hg with rfl | hg
        · have hall : ∀ a ∈ c :: b :: g', kind a = kind b := by
            intro a ha
            rcases mem_cons.mp ha with rfl | ha
            · exact hkind
            · exact ih _ mem_cons_self a ha b mem_cons_self
          intro a ha d hd
          rw [hall a ha, hall d hd]
        · exact ih g (mem_cons_of_mem _ hg)
      · rw [hpush] at hg
        rcases mem_cons.mp hg with rfl | hg
        · intro a ha d hd
          rw [mem_singleton.mp ha, mem_singleton.mp hd]
        · exact ih g hg

/-! ## The loop of `Init` -/

/-- The loop, from the last axis to the first. -/
def run (l : List (ℤ × ℤ)) : State × Bcast :=
  l.foldr (fun a s => initStep s a) (.unknown, start)

theorem init_reverse (l : List (ℤ × ℤ)) : init l.reverse = (run l).2 := by
  unfold init run
  rw [foldl_reverse]

theorem run_cons (a : ℤ × ℤ) (l : List (ℤ × ℤ)) : run (a :: l) = initStep (run l) a := rfl

/-- The products that are made in a group, of its last two axes and more, are numbers of
`int64_t`. -/
def GroupFits (g : List (ℤ × ℤ)) : Prop := ∀ t, t <:+ g → 2 ≤ t.length → DimInt64 (merged t)

theorem groupFits_singleton (a : ℤ × ℤ) : GroupFits [a] := by
  intro t ht hlen
  have := ht.length_le
  rw [length_singleton] at this
  omega

theorem groupFits_cons {b : ℤ × ℤ} {g : List (ℤ × ℤ)} :
    GroupFits (a :: b :: g) ↔ DimInt64 (merged (a :: b :: g)) ∧ GroupFits (b :: g) := by
  constructor
  · intro h
    refine ⟨h _ (suffix_refl _) ?_, fun t ht => h t (ht.trans (suffix_cons a _))⟩
    rw [length_cons, length_cons]
    omega
  · intro ⟨hall, htail⟩ t ht hlen
    rcases suffix_cons_iff.mp ht with rfl | ht
    · exact hall
    · exact htail t ht hlen

/-- What the loop has after these axes. -/
structure RunOk (l : List (ℤ × ℤ)) (s : State × Bcast) : Prop where
  prev : s.1 = headKind (groups l)
  valid : s.2.valid = true
  overflow : s.2.overflow = false ↔ ∀ g ∈ groups l, GroupFits g
  dims : s.2.dims = (groups l).map merged

/-- What one turn of the loop does with an axis that broadcasts: nothing for a pair of ones, else a
new entry or a product into the first one. -/
theorem initStep_compat (hs : s.2.valid = true) (ha : Compat a) : initStep s a =
      if a = (1, 1) then (s.1, { s.2 with shapeOut := s.2.shapeOut ++ [out a] })
      else if s.1 = kind a then
        (kind a, { s.2 with shapeOut := s.2.shapeOut ++ [out a] }.mulBack (dimOf a))
      else (kind a, { s.2 with
        shapeOut := s.2.shapeOut ++ [out a], dims := dimOf a :: s.2.dims }) := by
  have hone : kind a = .same ∧ a.1 = 1 ↔ a = (1, 1) := by
    obtain ⟨x, y⟩ := a
    unfold kind
    dsimp only
    constructor
    · intro ⟨hkind, hx⟩
      by_cases hxy : x = y
      · rw [← hxy, hx]
      · rw [if_neg hxy, if_pos hx] at hkind
        exact absurd hkind (by decide)
    · intro h
      obtain ⟨rfl, rfl⟩ := Prod.mk.inj h
      exact ⟨if_pos rfl, rfl⟩
  unfold initStep
  dsimp only
  rw [if_neg (by rw [hs]; decide), axisDim_compat ha]
  dsimp only
  simp only [hone]
  rfl

theorem initStep_not_compat (h : s.2.valid = false ∨ ¬ Compat a) :
    (initStep s a).2.valid = false := by
  unfold initStep
  dsimp only
  split
  next hs => simpa using hs
  next hs =>
    have ha : ¬ Compat a := h.resolve_left (by simpa using hs)
    rw [axisDim_not_compat ha]

/-- By induction on the axes: after the loop the entries are the merged groups, and no product
overflows just when each group fits. -/
theorem run_ok : ∀ {l : List (ℤ × ℤ)}, (∀ a ∈ l, Compat a) → RunOk l (run l)
  | [], _ => ⟨rfl, rfl, ⟨fun _ g hg => absurd hg not_mem_nil, fun _ => rfl⟩, rfl⟩
  | a :: l, h => by
    obtain ⟨hprev, hvalid, hover, hdims⟩ := run_ok fun b hb => h b (mem_cons_of_mem a hb)
    rw [run_cons, initStep_compat hvalid (h a mem_cons_self)]
    -- a pair of ones joins no group
    by_cases hone : a = (1, 1)
    · have hgroups : groups (a :: l) = groups l := if_pos hone
      rw [if_pos hone]
      exact ⟨hgroups ▸ hprev, hvalid, hgroups ▸ hover, hgroups ▸ hdims⟩
    have hgroups : groups (a :: l) = pushAxis a (groups l) := if_neg hone
    rw [if_neg hone, hprev]
    rcases pushAxis_cases a (groups l) (nil_not_mem_groups l) with
      ⟨b, g, rest, hgs, hkind, hpush⟩ | ⟨hkind, hpush⟩
    · -- of the same kind: it joins the first group
      rw [hgs] at hdims hover
      rw [hgs, if_pos (show headKind ((b :: g) :: rest) = kind a from hkind.symm)]
      have hback : { (run l).2 with shapeOut := (run l).2.shapeOut ++ [out a] }.mulBack (dimOf a)
          = { (run l).2 with
              shapeOut := (run l).2.shapeOut ++ [out a]
              overflow := (run l).2.overflow || !decide (DimInt64 (merged (a :: b :: g)))
              dims := merged (a :: b :: g) :: rest.map merged } := by
        unfold mulBack
        dsimp only
        rw [hdims]
        rfl
      rw [hback]
      refine ⟨by rw [hgroups, hpush]; rfl, hvalid, ?_, by rw [hgroups, hpush]; rfl⟩
      rw [hgroups, hpush, Bool.or_eq_false_iff, hover, Bool.not_eq_false', decide_eq_true_eq,
        forall_mem_cons, forall_mem_cons, groupFits_cons]
      exact ⟨fun ⟨⟨h1, h2⟩, h3⟩ => ⟨⟨h3, h1⟩, h2⟩, fun ⟨⟨h3, h1⟩, h2⟩ => ⟨⟨h1, h2⟩, h3⟩⟩
    · -- of another kind: a group of its own
      rw [if_neg hkind]
      refine ⟨by rw [hgroups, hpush]; rfl, hvalid, ?_, ?_⟩
      · rw [hgroups, hpush, forall_mem_cons]
        exact ⟨fun h => ⟨groupFits_singleton a, hover.mp h⟩, fun h => hover.mpr h.2⟩
      · show dimOf a :: (run l).2.dims = _
        rw [hgroups, hpush, hdims, map_cons]
        congr 1
        unfold merged merged mulDim
        simp only [one_mul]

theorem run_valid_iff : ∀ {l : List (ℤ × ℤ)}, (run l).2.valid = true ↔ ∀ a ∈ l, Compat a
  | [] => ⟨fun _ a ha => absurd ha not_mem_nil, fun _ => rfl⟩
  | a :: l => by
    refine ⟨fun h => ?_, fun h => (run_ok h).valid⟩
    by_contra hall
    have hbad : (run l).2.valid = false ∨ ¬ Compat a := by
      by_cases ha : Compat a
      · left
        have hl : ¬ ∀ b ∈ l, Compat b := fun hl => hall (forall_mem_cons.mpr ⟨ha, hl⟩)
        exact Bool.eq_false_iff.mpr (mt run_valid_iff.mp hl)
      · exact Or.inr ha
    rw [run_cons, initStep_not_compat hbad] at h
    exact Bool.false_ne_true h

/-! ## What the two checks accept -/

theorem axes_self (x : List ℤ) : axes x x = x.zip x := by
  unfold axes
  rw [Nat.max_self, lengthened_self]

theorem countStep_valid : ∀ (shape : List ℤ) (b : Bcast) (n : ℤ),
    (countStep b n shape).1.valid = b.valid
  | [], _, _ => rfl
  | _ :: shape, _, _ => countStep_valid shape _ _

/-- Equal shapes are one axis, and all the constructor computes is their number of elements. -/
theorem bcast_self (x : List ℤ) : bcast x x =
    { (countStep start 1 x).1 with
      dims := [⟨(countStep start 1 x).2, (countStep start 1 x).2, 1,
        (countStep start 1 x).2, 1⟩] } :=
  if_pos rfl

/-- For different shapes the result is what the loop leaves, with strides if the shapes
broadcast. -/
theorem bcast_of_ne {x y : List ℤ} (h : x ≠ y) : bcast x y =
    if (run (axes x y)).2.valid = false then
      { (run (axes x y)).2 with dims := (run (axes x y)).2.dims.reverse }
    else generateStrides (if (run (axes x y)).2.dims = [] then
      { (run (axes x y)).2 with dims := [⟨1, 1, 1, 1, 1⟩] } else (run (axes x y)).2) := by
  unfold bcast
  rw [if_neg h, reversedAxes_eq, init_reverse]
  simp only [Bool.not_eq_true']

/-- `Valid` tells whether every axis broadcasts. -/
theorem bcast_valid_iff : (bcast x y).valid = true ↔ ∀ a ∈ axes x y, Compat a := by
  by_cases h : x = y
  · subst h
    rw [bcast_self]
    refine ⟨fun _ a ha => ?_, fun _ => countStep_valid _ _ _⟩
    rw [axes_self, zip_eq_zipWith, zipWith_self] at ha
    obtain ⟨d, -, rfl⟩ := mem_map.mp ha
    exact Or.inl rfl
  · rw [bcast_of_ne h, ← run_valid_iff]
    split
    next hinvalid => rw [hinvalid]
    · unfold generateStrides
      split <;> exact Iff.rfl

theorem repetitions_isSome_iff : ∀ {l : List (ℤ × ℤ)},
    (repetitions l).isSome = true ↔ ∀ a ∈ l, Compat a
  | [] => ⟨fun _ a ha => absurd ha not_mem_nil, fun _ => rfl⟩
  | (x, y) :: l => by
    rw [forall_mem_cons, ← repetitions_isSome_iff, repetitions]
    unfold Compat
    cases repetitions l <;> by_cases hxy : x = y <;> by_cases hx : x = 1 <;>
      by_cases hy : y = 1 <;> simp_all

/-- The larger size of an axis, which `GenerateBcastInfo` asks the output for. -/
def larger (a : ℤ × ℤ) : ℤ := max a.1 a.2

/-- The shapes align, broadcast and have this broadcast. -/
def broadcast (x y : List ℤ) : Option (List ℤ) :=
  if ∀ a ∈ axes x y, Compat a then some ((axes x y).map out) else none

theorem map_axes (f : ℤ × ℤ → ℤ) (i : ℕ) (hi : i < max x.length y.length) :
    ((axes x y).map f)[i]? = some (f ((lengthened (max x.length y.length) x).getD i 0,
      (lengthened (max x.length y.length) y).getD i 0)) := by
  have hx := length_lengthened (Nat.le_max_left x.length y.length)
  have hy := length_lengthened (Nat.le_max_right x.length y.length)
  unfold axes
  rw [getElem?_map, getElem?_eq_getElem (by rw [length_zip, hx, hy]; omega),
    getElem_zip, getD_eq_getElem _ _ (by omega), getD_eq_getElem _ _ (by omega)]
  rfl

theorem length_axes : (axes x y).length = max x.length y.length := by
  unfold axes
  rw [length_zip, length_lengthened (Nat.le_max_left _ _),
    length_lengthened (Nat.le_max_right _ _), Nat.min_self]

theorem eq_larger_iff (x y o : List ℤ) : o = (axes x y).map larger ↔
    o.length = max x.length y.length ∧ ¬ ∃ i < max x.length y.length,
      o.getD i 0 ≠ max ((lengthened (max x.length y.length) x).getD i 0)
        ((lengthened (max x.length y.length) y).getD i 0) := by
  constructor
  · intro h
    refine ⟨by rw [h, length_map, length_axes], ?_⟩
    rintro ⟨i, hi, hne⟩
    refine hne ?_
    rw [h, getD_eq_getElem?_getD, map_axes x y larger i hi]
    rfl
  · intro ⟨hlen, hall⟩
    push Not at hall
    apply ext_getElem?
    intro i
    by_cases hi : i < max x.length y.length
    · rw [map_axes x y larger i hi, getElem?_eq_getElem (by omega),
        ← getD_eq_getElem _ 0, hall i hi]
      rfl
    · rw [getElem?_eq_none (by omega),
        getElem?_eq_none (by rw [length_map, length_axes]; omega)]

/-- `GenerateBcastInfo` accepts an output only that has the larger size of each axis, and if every
axis can be repeated to it. -/
theorem generateBcastInfo_eq (x y o : List ℤ) : generateBcastInfo x y o =
    if o = (axes x y).map larger then
      (repetitions (axes x y)).map fun r =>
        ⟨lengthened (max x.length y.length) x, lengthened (max x.length y.length) y, o,
          r.map Prod.fst, r.map Prod.snd⟩
    else none := by
  unfold generateBcastInfo
  by_cases hnil : x = [] ∧ y = [] ∧ o = []
  · obtain ⟨rfl, rfl, rfl⟩ := hnil
    rfl
  rw [if_neg hnil]
  have hmax : (if y.length < x.length then x.length else y.length) = max x.length y.length := by
    split <;> omega
  have hx : (if x.length < y.length then (resize (max x.length y.length) x.reverse).reverse
      else x) = lengthened (max x.length y.length) x := by
    rw [reverse_resize]
    split
    · rfl
    next h => rw [Nat.max_eq_left (Nat.not_lt.mp h), lengthened_self]
  have hy : (if y.length < x.length then (resize (max x.length y.length) y.reverse).reverse
      else y) = lengthened (max x.length y.length) y := by
    rw [reverse_resize]
    split
    · rfl
    next h => rw [Nat.max_eq_right (Nat.not_lt.mp h), lengthened_self]
  simp only [hmax, hx, hy, eq_larger_iff]
  by_cases hlen : o.length = max x.length y.length
  · rw [if_neg (not_not_intro hlen)]
    by_cases hall : ∃ i < max x.length y.length,
        o.getD i 0 ≠ max ((lengthened (max x.length y.length) x).getD i 0)
          ((lengthened (max x.length y.length) y).getD i 0)
    · rw [if_pos hall, if_neg fun h => h.2 hall]
    · rw [if_neg hall, if_pos ⟨hlen, hall⟩]
      show (repetitions (axes x y)).bind _ = _
      cases repetitions (axes x y) <;> rfl
  · rw [if_pos hlen, if_neg fun h => hlen h.1]

/-- `GenerateBcastInfo` accepts the shapes that broadcast with the larger sizes as the output. -/
theorem generateBcastInfo_isSome_iff (x y o : List ℤ) : (generateBcastInfo x y o).isSome = true ↔
    (∀ a ∈ axes x y, Compat a) ∧ o = (axes x y).map larger := by
  rw [generateBcastInfo_eq, ← repetitions_isSome_iff]
  split
  next h => rw [Option.isSome_map, and_iff_left h]
  next h => exact ⟨fun hc => absurd hc (by simp), fun hc => absurd hc.2 h⟩

/-- The sizes are a zero and a one, in either order. -/
def ZeroOne (a : ℤ × ℤ) : Prop := a = (0, 1) ∨ a = (1, 0)

instance (a : ℤ × ℤ) : Decidable (ZeroOne a) := inferInstanceAs (Decidable (_ ∨ _))

/-- The larger size is that of the broadcast, but for a zero against a one. -/
theorem larger_eq_out_iff (hx : 0 ≤ a.1) (hy : 0 ≤ a.2) (h : Compat a) :
    larger a = out a ↔ ¬ ZeroOne a := by
  obtain ⟨x, y⟩ := a
  unfold larger out ZeroOne
  simp only [Prod.mk.injEq]
  unfold Compat at h
  dsimp only at hx hy h ⊢
  split <;> omega

theorem map_larger_eq_iff {l : List (ℤ × ℤ)} (hpos : ∀ a ∈ l, 0 ≤ a.1 ∧ 0 ≤ a.2)
    (h : ∀ a ∈ l, Compat a) : l.map larger = l.map out ↔ ∀ a ∈ l, ¬ ZeroOne a := by
  rw [map_inj_left]
  exact forall₂_congr fun a ha => larger_eq_out_iff (hpos a ha).1 (hpos a ha).2 (h a ha)

/-- What holds of every size of two shapes, and of one, holds of the sizes of their axes. -/
theorem forall_axes {p : ℤ → Prop} {x y : List ℤ} (hone : p 1) (hx : ∀ d ∈ x, p d)
    (hy : ∀ d ∈ y, p d) : ∀ a ∈ axes x y, p a.1 ∧ p a.2 := by
  have hlong : ∀ {n : ℕ} {shape : List ℤ}, (∀ d ∈ shape, p d) → ∀ d ∈ lengthened n shape, p d := by
    intro n shape h d hd
    rcases mem_append.mp hd with hd | hd
    · rw [eq_of_mem_replicate hd]
      exact hone
    · exact h d hd
  intro a ha
  have hmem := of_mem_zip ha
  exact ⟨hlong hx _ hmem.1, hlong hy _ hmem.2⟩

/-- The two checks agree on these shapes. -/
def ChecksAgree (x y o : List ℤ) : Prop :=
  (generateBcastInfo x y o).isSome = true ↔ (bcast x y).valid = true ∧ broadcast x y = some o

instance (x y o : List ℤ) : Decidable (ChecksAgree x y o) := inferInstanceAs (Decidable (_ ↔ _))

/-- `std::max` is the broadcast of a zero and a one no more than it is of two sizes that do not
broadcast: it refuses the broadcast shape there, and accepts another. -/
theorem checksAgree_iff {x y o : List ℤ} (hx : ∀ d ∈ x, 0 ≤ d) (hy : ∀ d ∈ y, 0 ≤ d) :
    ChecksAgree x y o ↔
      (∀ a ∈ axes x y, ¬ ZeroOne a) ∨ (∃ a ∈ axes x y, ¬ Compat a) ∨
        (o ≠ (axes x y).map out ∧ o ≠ (axes x y).map larger) := by
  unfold ChecksAgree broadcast
  rw [generateBcastInfo_isSome_iff, bcast_valid_iff]
  by_cases hall : ∀ a ∈ axes x y, Compat a
  · rw [if_pos hall, ← map_larger_eq_iff (forall_axes zero_le_one hx hy) hall]
    have hnone : ¬ ∃ a ∈ axes x y, ¬ Compat a := fun ⟨a, ha, h⟩ => h (hall a ha)
    simp only [hnone, false_or, and_iff_right hall, Option.some.injEq]
    constructor
    · intro h
      by_cases heq : (axes x y).map larger = (axes x y).map out
      · exact Or.inl heq
      · refine Or.inr ⟨fun ho => ?_, fun ho => ?_⟩
        · exact heq ((h.mpr ho.symm).symm.trans ho)
        · exact heq (ho.symm.trans (h.mp ho).symm)
    · rintro (h | ⟨h, h'⟩)
      · rw [h]
        exact eq_comm
      · exact ⟨fun hc => absurd hc h', fun hc => absurd hc.symm h⟩
  · rw [if_neg hall]
    refine ⟨fun _ => Or.inr (Or.inl ?_), fun _ => ?_⟩
    · push Not at hall
      exact hall
    · exact ⟨fun h => absurd h.1 hall, fun h => absurd h.1 hall⟩

theorem checksAgree_iff_row : ChecksAgree [2, 1] [3] [2, 3] :=
  (checksAgree_iff (by decide) (by decide)).mpr (Or.inl (by decide))

/-- An axis of length one against an empty one. -/
theorem checksAgree_refutes : ¬ ChecksAgree [1] [0] [0] := by decide

end OpBase.Shape.Bcast
