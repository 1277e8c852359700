import Mathlib

/-!
# Strided index spaces

An axis has a size and a stride. A multi-index has one index on every axis, and its offset
is the sum of the indices times the strides.

Of a space the two questions are asked that a program asks of a view into memory: which
offsets there are at all, and whether they are the first numbers, each of them once.

> `inBounds_iff`: all offsets are within bounds if the lowest and the highest one are, and
> these are sums over the axes.
>
> `bijective_iff_contiguous`: where the axes come in order of their strides, the offsets
> count the elements just if every stride is the product of the sizes in front of it. The
> order of the axes has no part in this (`bijective_perm`), nor have axes of size one
> (`bijective_dropUnits`).
>
> `offset_eq_rowMajor_iff`: the offsets count them in row-major order just if every stride
> is the product of the sizes behind it, but for axes of size one.
-/

namespace OpBase.Lib.Strided

open List

structure Axis where
  size : ℤ
  stride : ℤ
  deriving DecidableEq

def Inside (l : List Axis) (is : List ℤ) : Prop :=
  List.Forall₂ (fun a i => 0 ≤ i ∧ i < a.size) l is

/-- The multi-indices. -/
def space (l : List Axis) : Set (List ℤ) := {is | Inside l is}

def offset : List Axis → List ℤ → ℤ
  | a :: l, i :: is => i * a.stride + offset l is
  | _, _ => 0

/-- The number of elements. -/
def count (l : List Axis) : ℤ := (l.map Axis.size).prod

/-- The offsets are the numbers below the number of elements, each of them once. -/
def Bijective (l : List Axis) : Prop :=
  Set.BijOn (offset l) (space l) (Set.Ico 0 (count l))

def offsets (l : List Axis) : Set ℤ := offset l '' space l

/-- Every stride is the product of `s` and the sizes in front of it. -/
def Contiguous : ℤ → List Axis → Prop
  | _, [] => True
  | s, a :: l => a.stride = s ∧ Contiguous (s * a.size) l

theorem count_cons (a : Axis) (l : List Axis) : count (a :: l) = a.size * count l := rfl

theorem count_pos : ∀ {l : List Axis}, (∀ a ∈ l, 1 ≤ a.size) → 0 < count l
  | [], _ => zero_lt_one
  | a :: l, h => by
    rw [count_cons]
    exact mul_pos (h a mem_cons_self) (count_pos fun b hb => h b (mem_cons_of_mem a hb))

theorem count_perm {l l' : List Axis} (h : l.Perm l') : count l = count l' :=
  (h.map Axis.size).prod_eq

theorem mem_offsets_nil {z : ℤ} : z ∈ offsets [] ↔ z = 0 := by
  constructor
  · rintro ⟨_, ⟨⟩, rfl⟩
    rfl
  · rintro rfl
    exact ⟨[], .nil, rfl⟩

variable {l : List Axis}

/-- The offsets of one axis more: multiples of its stride, added to the others. -/
theorem mem_offsets_cons {a : Axis} {z : ℤ} : z ∈ offsets (a :: l) ↔
    ∃ i, (0 ≤ i ∧ i < a.size) ∧ ∃ w ∈ offsets l, z = i * a.stride + w := by
  constructor
  · rintro ⟨_, h, rfl⟩
    obtain ⟨i, is, hi, his, rfl⟩ := forall₂_cons_left_iff.mp h
    exact ⟨i, hi, _, ⟨is, his, rfl⟩, rfl⟩
  · rintro ⟨i, hi, _, ⟨is, his, rfl⟩, rfl⟩
    exact ⟨i :: is, .cons hi his, rfl⟩

theorem offsets_perm {l l' : List Axis} (h : l.Perm l') : offsets l = offsets l' := by
  induction h with
  | nil => rfl
  | cons a _ ih =>
    ext z
    rw [mem_offsets_cons, mem_offsets_cons, ih]
  | swap a b l =>
    ext z
    simp only [mem_offsets_cons]
    constructor
    · rintro ⟨i, hi, _, ⟨j, hj, w, hw, rfl⟩, rfl⟩
      exact ⟨j, hj, _, ⟨i, hi, w, hw, rfl⟩, by ring⟩
    · rintro ⟨i, hi, _, ⟨j, hj, w, hw, rfl⟩, rfl⟩
      exact ⟨j, hj, _, ⟨i, hi, w, hw, rfl⟩, by ring⟩
  | trans _ _ ih ih' => rw [ih, ih']

theorem zero_mem_offsets : ∀ {l : List Axis}, (∀ a ∈ l, 1 ≤ a.size) → (0 : ℤ) ∈ offsets l
  | [], _ => mem_offsets_nil.mpr rfl
  | a :: l, h => by
    have ha := h a mem_cons_self
    have hl := zero_mem_offsets fun b hb => h b (mem_cons_of_mem a hb)
    exact mem_offsets_cons.mpr ⟨0, by omega, 0, hl, by ring⟩

theorem stride_mem_offsets : ∀ {l : List Axis} {a : Axis}, (∀ b ∈ l, 1 ≤ b.size) → a ∈ l →
    2 ≤ a.size → a.stride ∈ offsets l
  | b :: l, a, h, ha, h2 => by
    have hl : ∀ c ∈ l, 1 ≤ c.size := fun c hc => h c (mem_cons_of_mem b hc)
    rcases mem_cons.mp ha with rfl | ha
    · exact mem_offsets_cons.mpr ⟨1, by omega, 0, zero_mem_offsets hl, by ring⟩
    · have hb := h b mem_cons_self
      exact mem_offsets_cons.mpr ⟨0, by omega, _, stride_mem_offsets hl ha h2, by ring⟩

/-! ## Bijections are decided by the set of offsets -/

/-- The index space has as many points as the sizes multiply to. -/
theorem inside_finite_ncard : ∀ {l : List Axis}, (∀ a ∈ l, 1 ≤ a.size) →
    (space l).Finite ∧ ((space l).ncard : ℤ) = count l
  | [], _ => by
    have he : space [] = {[]} := by
      ext is
      exact forall₂_nil_left_iff
    rw [he]
    exact ⟨Set.finite_singleton _, by rw [Set.ncard_singleton]; rfl⟩
  | a :: l, h => by
    obtain ⟨hf, hc⟩ := inside_finite_ncard fun b hb => h b (mem_cons_of_mem a hb)
    -- an index of the first axis and one of the others
    have he : space (a :: l)
        = (fun p : ℤ × List ℤ => p.1 :: p.2) '' (Set.Ico 0 a.size ×ˢ space l) := by
      ext is
      constructor
      · intro his
        obtain ⟨i, js, hi, hjs, rfl⟩ := forall₂_cons_left_iff.mp his
        exact ⟨(i, js), ⟨hi, hjs⟩, rfl⟩
      · rintro ⟨⟨i, js⟩, ⟨hi, hjs⟩, rfl⟩
        exact .cons hi hjs
    have hinj : Function.Injective fun p : ℤ × List ℤ => p.1 :: p.2 := by
      intro ⟨i, is⟩ ⟨j, js⟩ hp
      obtain ⟨rfl, rfl⟩ := List.cons.inj hp
      rfl
    have ha := h a mem_cons_self
    have hico : ((Set.Ico 0 a.size).ncard : ℤ) = a.size := by
      rw [← Finset.coe_Ico, Set.ncard_coe_finset, Int.card_Ico]
      omega
    rw [he, Set.ncard_image_of_injective _ hinj, Set.ncard_prod, Nat.cast_mul, hico, hc]
    exact ⟨((Set.finite_Ico 0 a.size).prod hf).image _, rfl⟩

theorem bijective_iff (h : ∀ a ∈ l, 1 ≤ a.size) :
    Bijective l ↔ offsets l = Set.Ico 0 (count l) := by
  refine ⟨fun hb => hb.image_eq, fun he => ?_⟩
  obtain ⟨hf, hc⟩ := inside_finite_ncard h
  have hinj : Set.InjOn (offset l) (space l) := by
    refine (Set.ncard_image_iff hf).mp ?_
    have hico : ((Set.Ico 0 (count l)).ncard : ℤ) = count l := by
      rw [← Finset.coe_Ico, Set.ncard_coe_finset, Int.card_Ico]
      have := count_pos h
      omega
    have : offset l '' space l = Set.Ico 0 (count l) := he
    rw [this]
    omega
  have hbij := hinj.bijOn_image
  rw [show offset l '' space l = Set.Ico 0 (count l) from he] at hbij
  exact hbij

/-- The order of the axes does not matter. -/
theorem bijective_perm {l l' : List Axis} (h : l.Perm l') (hs : ∀ a ∈ l, 1 ≤ a.size) :
    Bijective l ↔ Bijective l' := by
  have hs' : ∀ a ∈ l', 1 ≤ a.size := fun a ha => hs a (h.mem_iff.mpr ha)
  rw [bijective_iff hs, bijective_iff hs', offsets_perm h, count_perm h]

/-! ## Axes of size one -/

def dropUnits (l : List Axis) : List Axis := l.filter (·.size ≠ 1)

/-- Axes of size one add no offset and no element. -/
theorem dropUnits_same : ∀ l : List Axis,
    offsets (dropUnits l) = offsets l ∧ count (dropUnits l) = count l
  | [] => ⟨rfl, rfl⟩
  | a :: l => by
    obtain ⟨ho, hc⟩ := dropUnits_same l
    unfold dropUnits at ho hc ⊢
    by_cases h1 : a.size = 1
    · rw [filter_cons_of_neg (by simpa using h1), ho, hc, count_cons, h1, one_mul]
      refine ⟨?_, rfl⟩
      ext z
      rw [mem_offsets_cons]
      constructor
      · intro hz
        exact ⟨0, by omega, z, hz, by ring⟩
      · rintro ⟨i, hi, w, hw, rfl⟩
        have hi0 : i = 0 := by omega
        rwa [hi0, zero_mul, zero_add]
    · rw [filter_cons_of_pos (by simpa using h1), count_cons, count_cons, hc]
      refine ⟨?_, rfl⟩
      ext z
      rw [mem_offsets_cons, mem_offsets_cons, ho]

theorem bijective_dropUnits (h : ∀ a ∈ l, 1 ≤ a.size) : Bijective (dropUnits l) ↔ Bijective l := by
  have h' : ∀ a ∈ dropUnits l, 1 ≤ a.size := fun a ha => h a (mem_of_mem_filter ha)
  rw [bijective_iff h, bijective_iff h', (dropUnits_same l).1, (dropUnits_same l).2]

/-! ## Axes in order of their strides -/

theorem offsets_ge {p : ℤ} (hp : 0 ≤ p) : ∀ {l : List Axis}, (∀ a ∈ l, p ≤ a.stride) →
    ∀ z ∈ offsets l, z = 0 ∨ p ≤ z
  | [], _, z, hz => .inl (mem_offsets_nil.mp hz)
  | a :: l, h, z, hz => by
    obtain ⟨i, hi, w, hw, rfl⟩ := mem_offsets_cons.mp hz
    have ha := h a mem_cons_self
    have hw' := offsets_ge hp (fun b hb => h b (mem_cons_of_mem a hb)) w hw
    rcases Int.le_iff_lt_or_eq.mp hi.1 with h0 | rfl
    · have : a.stride ≤ i * a.stride := by nlinarith
      right
      rcases hw' with rfl | hw' <;> linarith
    · rwa [zero_mul, zero_add]

theorem offsets_merge {m : ℤ} (hm : 0 < m) (n : ℤ) (l : List Axis) :
    offsets (⟨m, 1⟩ :: ⟨n, m⟩ :: l) = offsets (⟨m * n, 1⟩ :: l) := by
  ext z
  simp only [mem_offsets_cons]
  constructor
  · rintro ⟨i, hi, _, ⟨j, hj, w, hw, rfl⟩, rfl⟩
    refine ⟨i + j * m, ⟨by nlinarith, ?_⟩, w, hw, by ring⟩
    have : (j + 1) * m ≤ n * m := mul_le_mul_of_nonneg_right (by omega) hm.le
    linarith
  · rintro ⟨k, hk, w, hw, rfl⟩
    refine ⟨k % m, ⟨Int.emod_nonneg k hm.ne', Int.emod_lt_of_pos k hm⟩, _,
      ⟨k / m, ⟨Int.ediv_nonneg hk.1 hm.le, ?_⟩, w, hw, rfl⟩, ?_⟩
    · exact Int.ediv_lt_of_lt_mul hm (by linarith [hk.2])
    · have := Int.emod_add_mul_ediv k m
      linarith

/-- The smallest stride is the number of elements below it, or the next offset would be missing. -/
theorem Bijective.stride_eq {a : Axis} {m : ℤ} (hm : 0 < m)
    (h2 : ∀ b ∈ a :: l, 2 ≤ b.size) (hge : ∀ b ∈ a :: l, a.stride ≤ b.stride)
    (hb : Bijective (⟨m, 1⟩ :: a :: l)) : a.stride = m := by
  have h2a := h2 a mem_cons_self
  have h1l : ∀ b ∈ l, 1 ≤ b.size := fun b hb => le_of_lt (h2 b (mem_cons_of_mem a hb))
  have hsizes : ∀ b ∈ (⟨m, 1⟩ : Axis) :: a :: l, 1 ≤ b.size :=
    forall_mem_cons.mpr ⟨hm, fun b hb => le_of_lt (h2 b hb)⟩
  have he := (bijective_iff hsizes).mp hb
  have h0 : 0 ≤ a.stride := by
    have hmem := stride_mem_offsets hsizes (mem_cons_of_mem _ mem_cons_self) h2a
    rw [he] at hmem
    exact hmem.1
  rcases lt_trichotomy a.stride m with hlt | heq | hgt
  · -- the second element along this axis would have the offset of one along the axis in front
    exfalso
    obtain ⟨is, his, -⟩ := zero_mem_offsets h1l
    have hin1 : Inside (⟨m, 1⟩ :: a :: l) (a.stride :: 0 :: is) :=
      .cons ⟨h0, hlt⟩ (.cons ⟨le_refl 0, by omega⟩ his)
    have hin2 : Inside (⟨m, 1⟩ :: a :: l) (0 :: 1 :: is) :=
      .cons ⟨le_refl 0, hm⟩ (.cons ⟨by omega, by omega⟩ his)
    have hsame := hb.injOn hin1 hin2 (by simp only [offset]; ring)
    exact absurd (List.cons.inj (List.cons.inj hsame).2).1 (by omega)
  · exact heq
  · -- nothing would have the offset `m`
    exfalso
    have hmem : m ∈ offsets (⟨m, 1⟩ :: a :: l) := by
      rw [he, count_cons, count_cons]
      have hl := count_pos h1l
      have : 1 < a.size * count l := by nlinarith
      exact ⟨hm.le, by nlinarith⟩
    obtain ⟨i, hi, w, hw, hz⟩ := mem_offsets_cons.mp hmem
    dsimp only at hi hz
    rcases offsets_ge h0 hge w hw with rfl | hw' <;> omega

/-- By induction on the axes, in the order of their strides: each stride has to be the product of
the sizes in front. -/
theorem merged_iff_contiguous : ∀ {l : List Axis} {m : ℤ}, 0 < m → (∀ a ∈ l, 2 ≤ a.size) →
    l.Pairwise (·.stride ≤ ·.stride) → (Bijective (⟨m, 1⟩ :: l) ↔ Contiguous m l)
  | [], m, hm, _, _ => by
    have h1 : ∀ a ∈ [(⟨m, 1⟩ : Axis)], 1 ≤ a.size := forall_mem_singleton.mpr hm
    rw [bijective_iff h1]
    refine ⟨fun _ => trivial, fun _ => ?_⟩
    have hc : count [⟨m, 1⟩] = m := mul_one m
    ext z
    rw [mem_offsets_cons, hc]
    constructor
    · rintro ⟨i, hi, w, hw, rfl⟩
      rw [mem_offsets_nil.mp hw, mul_one, add_zero]
      exact hi
    · intro hz
      exact ⟨z, hz, 0, mem_offsets_nil.mpr rfl, by ring⟩
  | a :: l, m, hm, h2, hp => by
    have hal := pairwise_cons.mp hp
    have h2al := forall_mem_cons.mp h2
    have hn : 0 < a.size := by linarith [h2al.1]
    have hsizes : ∀ b ∈ (⟨m, 1⟩ : Axis) :: a :: l, 1 ≤ b.size :=
      forall_mem_cons.mpr ⟨hm, fun b hb => le_of_lt (h2 b hb)⟩
    have hmerged : ∀ b ∈ (⟨m * a.size, 1⟩ : Axis) :: l, 1 ≤ b.size :=
      forall_mem_cons.mpr ⟨mul_pos hm hn, fun b hb => le_of_lt (h2al.2 b hb)⟩
    -- an axis of stride `m` joins the first one
    have hiff : a.stride = m → (Bijective (⟨m, 1⟩ :: a :: l) ↔ Contiguous (m * a.size) l) := by
      intro hs
      have ha : a = ⟨a.size, m⟩ := by rw [← hs]
      rw [← merged_iff_contiguous (mul_pos hm hn) h2al.2 hal.2, bijective_iff hsizes,
        bijective_iff hmerged, ha, offsets_merge hm]
      simp only [count_cons, mul_assoc]
    constructor
    · intro hb
      have hs := hb.stride_eq hm h2 (forall_mem_cons.mpr ⟨le_refl _, hal.1⟩)
      exact ⟨hs, (hiff hs).mp hb⟩
    · intro ⟨hs, hc⟩
      exact (hiff hs).mpr hc

/-- In the order of their strides, axes have distinct offsets without gaps just when they are
contiguous. -/
theorem bijective_iff_contiguous (h2 : ∀ a ∈ l, 2 ≤ a.size)
    (hp : l.Pairwise (·.stride ≤ ·.stride)) : Bijective l ↔ Contiguous 1 l := by
  rw [← merged_iff_contiguous zero_lt_one h2 hp, ← bijective_dropUnits (l := ⟨1, 1⟩ :: l)]
  · have : dropUnits (⟨1, 1⟩ :: l) = l := by
      unfold dropUnits
      rw [filter_cons_of_neg (by decide), filter_eq_self]
      intro a ha
      have := h2 a ha
      simp only [ne_eq, decide_not, Bool.not_eq_eq_eq_not, Bool.not_true, decide_eq_false_iff_not]
      omega
    rw [this]
  · rintro a (_ | ⟨_, ha⟩)
    · exact le_refl _
    · exact le_of_lt (h2 a ha)

/-- Contiguous axes are in the order of their strides. -/
theorem contiguous_sorted : ∀ {l : List Axis} {s : ℤ}, 0 < s → (∀ a ∈ l, 1 ≤ a.size) →
    Contiguous s l → (∀ a ∈ l, s ≤ a.stride) ∧ l.Pairwise (·.stride ≤ ·.stride)
  | [], _, _, _, _ => ⟨fun _ h => (nomatch h), .nil⟩
  | a :: l, s, hs, h1, ⟨ha, hc⟩ => by
    have h1a := h1 a mem_cons_self
    obtain ⟨hge, hp⟩ := contiguous_sorted (mul_pos hs (by omega))
      (fun b hb => h1 b (mem_cons_of_mem a hb)) hc
    have hle : s ≤ s * a.size := by nlinarith
    refine ⟨?_, pairwise_cons.mpr ⟨fun b hb => ?_, hp⟩⟩
    · rintro b (_ | ⟨_, hb⟩)
      · exact ha.ge
      · exact hle.trans (hge b hb)
    · rw [ha]
      exact hle.trans (hge b hb)

/-! ## Row-major order -/

/-- The position of a multi-index if the last axis varies fastest. -/
def rowMajor : List ℤ → List ℤ → ℤ
  | _ :: sizes, i :: is => i * sizes.prod + rowMajor sizes is
  | _, _ => 0

/-- Every stride but those of axes of size one is the number of elements behind its axis. -/
def RowMajorStrides : List Axis → Prop
  | [] => True
  | a :: l => (a.size = 1 ∨ a.stride = count l) ∧ RowMajorStrides l

theorem contiguous_append_singleton (a : Axis) :
    ∀ {s : ℤ}, Contiguous s (l ++ [a]) ↔ Contiguous s l ∧ a.stride = s * count l := by
  induction l with
  | nil =>
    intro s
    show a.stride = s ∧ True ↔ True ∧ a.stride = s * 1
    rw [mul_one, and_true, true_and]
  | cons b l ih =>
    intro s
    show b.stride = s ∧ Contiguous (s * b.size) (l ++ [a]) ↔ _
    rw [ih, count_cons, ← mul_assoc]
    exact and_assoc.symm

theorem count_reverse_dropUnits (l : List Axis) : count (dropUnits l).reverse = count l := by
  rw [count_perm (reverse_perm _), (dropUnits_same l).2]

/-- Row-major strides are contiguous ones from the last axis on, apart from axes of size one. -/
theorem rowMajorStrides_iff : RowMajorStrides l ↔ Contiguous 1 (dropUnits l).reverse := by
  induction l with
  | nil => exact iff_of_true trivial trivial
  | cons a l ih =>
    show (a.size = 1 ∨ a.stride = count l) ∧ RowMajorStrides l ↔ _
    rw [ih]
    unfold dropUnits
    by_cases h1 : a.size = 1
    · rw [filter_cons_of_neg (by simpa using h1)]
      exact and_iff_right (.inl h1)
    · rw [filter_cons_of_pos (by simpa using h1), reverse_cons,
        contiguous_append_singleton, or_iff_right h1, one_mul]
      show a.stride = count l ∧ _ ↔ _ ∧ a.stride = count (dropUnits l).reverse
      rw [count_reverse_dropUnits]
      exact and_comm

theorem inside_zeros (h : ∀ a ∈ l, 1 ≤ a.size) :
    Inside l (l.map fun _ => 0) ∧ offset l (l.map fun _ => 0) = 0 ∧
      rowMajor (l.map Axis.size) (l.map fun _ => 0) = 0 := by
  induction l with
  | nil => exact ⟨.nil, rfl, rfl⟩
  | cons a l ih =>
    obtain ⟨ha, hl⟩ := forall_mem_cons.mp h
    obtain ⟨hin, hoff, hrow⟩ := ih hl
    refine ⟨.cons ⟨le_refl 0, zero_lt_one.trans_le ha⟩ hin, ?_, ?_⟩
    · show 0 * a.stride + offset l _ = 0
      rw [hoff, zero_mul, add_zero]
    · show 0 * (l.map Axis.size).prod + rowMajor _ _ = 0
      rw [hrow, zero_mul, add_zero]

/-- The offsets are those of the row-major order just when the strides are. -/
theorem offset_eq_rowMajor_iff (h : ∀ a ∈ l, 1 ≤ a.size) :
    (∀ is, Inside l is → offset l is = rowMajor (l.map Axis.size) is) ↔ RowMajorStrides l := by
  induction l with
  | nil =>
    refine iff_of_true (fun is his => ?_) trivial
    cases his
    rfl
  | cons a l ih =>
    obtain ⟨ha, hl⟩ := forall_mem_cons.mp h
    obtain ⟨hin, hoff, hrow⟩ := inside_zeros hl
    constructor
    · intro hall
      refine ⟨or_iff_not_imp_left.mpr fun h1 => ?_, (ih hl).mp fun is his => ?_⟩
      · -- the second element along this axis, the first along the others
        have hsecond := hall (1 :: l.map fun _ => 0) (.cons ⟨by omega, by omega⟩ hin)
        have hstep : 1 * a.stride + offset l (l.map fun _ => 0) =
            1 * count l + rowMajor (l.map Axis.size) (l.map fun _ => 0) := hsecond
        rw [hoff, hrow] at hstep
        omega
      · have hfirst := hall (0 :: is) (.cons ⟨le_refl 0, by omega⟩ his)
        have hstep : 0 * a.stride + offset l is =
            0 * count l + rowMajor (l.map Axis.size) is := hfirst
        rwa [zero_mul, zero_mul, zero_add, zero_add] at hstep
    · intro ⟨ha', hrest⟩ is his
      obtain ⟨i, js, hi, hjs, rfl⟩ := forall₂_cons_left_iff.mp his
      have htail := (ih hl).mpr hrest js hjs
      show i * a.stride + offset l js = i * count l + rowMajor (l.map Axis.size) js
      rw [htail]
      rcases ha' with h1 | hs
      · have hi0 : i = 0 := by omega
        rw [hi0, zero_mul, zero_mul]
      · rw [hs]

/-! ## The lowest and the highest offset -/

def lowest (l : List Axis) : ℤ := (l.map fun a => min 0 (a.stride * (a.size - 1))).sum

def highest (l : List Axis) : ℤ := (l.map fun a => max 0 (a.stride * (a.size - 1))).sum

theorem lowest_cons (a : Axis) (l : List Axis) :
    lowest (a :: l) = min 0 (a.stride * (a.size - 1)) + lowest l := rfl

theorem highest_cons (a : Axis) (l : List Axis) :
    highest (a :: l) = max 0 (a.stride * (a.size - 1)) + highest l := rfl

theorem offset_between : ∀ {l : List Axis} {is : List ℤ}, Inside l is →
    lowest l ≤ offset l is ∧ offset l is ≤ highest l
  | [], _, .nil => ⟨le_refl _, le_refl _⟩
  | a :: l, i :: is, .cons hi his => by
    obtain ⟨hlo, hhi⟩ := offset_between his
    rw [lowest_cons, highest_cons, offset]
    rcases le_total 0 a.stride with hs | hs
    · have h0 : 0 ≤ i * a.stride := mul_nonneg hi.1 hs
      have h1 : i * a.stride ≤ a.stride * (a.size - 1) := by nlinarith [hi.2]
      constructor
      · linarith [min_le_left 0 (a.stride * (a.size - 1))]
      · linarith [le_max_right 0 (a.stride * (a.size - 1))]
    · have h0 : i * a.stride ≤ 0 := mul_nonpos_of_nonneg_of_nonpos hi.1 hs
      have h1 : a.stride * (a.size - 1) ≤ i * a.stride := by nlinarith [hi.2]
      constructor
      · linarith [min_le_right 0 (a.stride * (a.size - 1))]
      · linarith [le_max_left 0 (a.stride * (a.size - 1))]

theorem lowest_attained : ∀ {l : List Axis}, (∀ a ∈ l, 1 ≤ a.size) → lowest l ∈ offsets l
  | [], _ => mem_offsets_nil.mpr rfl
  | a :: l, h => by
    have ha := h a mem_cons_self
    have hl := lowest_attained fun b hb => h b (mem_cons_of_mem a hb)
    rw [lowest_cons]
    rcases le_total 0 (a.stride * (a.size - 1)) with hs | hs
    · exact mem_offsets_cons.mpr ⟨0, by omega, _, hl, by rw [min_eq_left hs, zero_mul]⟩
    · exact mem_offsets_cons.mpr ⟨a.size - 1, by omega, _, hl, by rw [min_eq_right hs, mul_comm]⟩

theorem highest_attained : ∀ {l : List Axis}, (∀ a ∈ l, 1 ≤ a.size) → highest l ∈ offsets l
  | [], _ => mem_offsets_nil.mpr rfl
  | a :: l, h => by
    have ha := h a mem_cons_self
    have hl := highest_attained fun b hb => h b (mem_cons_of_mem a hb)
    rw [highest_cons]
    rcases le_total 0 (a.stride * (a.size - 1)) with hs | hs
    · exact mem_offsets_cons.mpr ⟨a.size - 1, by omega, _, hl, by rw [max_eq_right hs, mul_comm]⟩
    · exact mem_offsets_cons.mpr ⟨0, by omega, _, hl, by rw [max_eq_left hs, zero_mul]⟩

/-- All offsets are in bounds just when the lowest and the highest are. -/
theorem inBounds_iff (h : ∀ a ∈ l, 1 ≤ a.size) (start n : ℤ) :
    (∀ is, Inside l is → 0 ≤ start + offset l is ∧ start + offset l is < n) ↔
      0 ≤ start + lowest l ∧ start + highest l < n := by
  constructor
  · intro hb
    obtain ⟨is, his, hlo⟩ := lowest_attained h
    obtain ⟨js, hjs, hhi⟩ := highest_attained h
    rw [← hlo, ← hhi]
    exact ⟨(hb is his).1, (hb js hjs).2⟩
  · intro ⟨hlo, hhi⟩ is his
    have := offset_between his
    omega

end OpBase.Lib.Strided
