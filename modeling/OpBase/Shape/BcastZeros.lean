import OpBase.Shape.BcastLists

/-!
# Broadcasts of a 0 with a 1

`GenerateBcastInfo` takes an axis that pairs a 0 with a 1 for one of size 1, as `std::max` has
it, and `BCastIndexes` with it. The constructor of `Bcast` takes it for one without elements.
Its index functions divide by the number of elements behind an axis, so that only the first
merged axis may have none; and they move on along that axis, where the lists do not.

> `listsAgree_iff`: the exact condition on the shapes under which the lists are right.
-/

namespace OpBase.Shape.Bcast

open List OpBase.Lib
open RowMajor (ins outs select select_zero stride)

/-! ## The last zero -/

theorem exists_last {α : Type*} {p : α → Prop} : ∀ {l : List α}, (∃ a ∈ l, p a) →
    ∃ pre a post, l = pre ++ a :: post ∧ p a ∧ ∀ b ∈ post, ¬ p b
  | [], h => absurd h (by simp)
  | c :: l, h => by
    by_cases htail : ∃ a ∈ l, p a
    · obtain ⟨pre, a, post, rfl, hp, hpost⟩ := exists_last htail
      exact ⟨c :: pre, a, post, rfl, hp, hpost⟩
    · obtain ⟨a, ha, hp⟩ := h
      rcases mem_cons.mp ha with rfl | ha
      · exact ⟨[], a, l, rfl, hp, fun b hb hpb => htail ⟨b, hb, hpb⟩⟩
      · exact absurd ⟨a, ha, hp⟩ htail

variable {z : ℤ × ℤ}

theorem ZeroOne.compat (h : ZeroOne z) : Compat z := by
  rcases h with rfl | rfl <;> decide

theorem ZeroOne.ne_one (h : ZeroOne z) : z ≠ (1, 1) := by
  rcases h with rfl | rfl <;> decide

theorem ZeroOne.out_eq (h : ZeroOne z) : out z = 0 := by
  rcases h with rfl | rfl <;> decide

theorem ZeroOne.larger_eq (h : ZeroOne z) : larger z = 1 := by
  rcases h with rfl | rfl <;> decide

/-- `z` is the last axis that pairs a 0 with a 1. No axis of the output is empty. -/
structure LastZero (l front : List (ℤ × ℤ)) (z : ℤ × ℤ) (back : List (ℤ × ℤ)) : Prop where
  split : l = front ++ z :: back
  zero : ZeroOne z
  positive : Positive back
  sizes : Sizes l
  larger_pos : ∀ a ∈ l, 1 ≤ larger a

namespace LastZero

variable {l front back : List (ℤ × ℤ)} {z : ℤ × ℤ}

theorem compat (h : LastZero l front z back) : ∀ a ∈ l, Compat a := fun a ha => (h.sizes a ha).1

theorem back_not_zero (h : LastZero l front z back) : ∀ a ∈ back, ¬ ZeroOne a := by
  rintro a ha (rfl | rfl)
  · exact absurd (h.positive _ ha).1 (by decide)
  · exact absurd (h.positive _ ha).2.1 (by decide)

/-- Only the axes in front of the last pair of a zero and a one matter. -/
theorem zerosInFront_iff (h : LastZero l front z back) :
    ZerosInFront l ↔ ∀ a ∈ front, a = (1, 1) ∨ a = z := by
  unfold ZerosInFront
  rw [h.split, pairwise_append]
  constructor
  · intro hall a ha
    exact hall.2.2 a ha z mem_cons_self h.zero
  · intro hfront
    have hcross : ∀ a, (a = (1, 1) ∨ a = z) → ∀ b ∈ front ++ z :: back,
        ZeroOne b → a = (1, 1) ∨ a = b := by
      intro a ha b hb hzb
      have hbz : b = z := by
        rcases mem_append.mp hb with hb | hb
        · exact (hfront b hb).resolve_left hzb.ne_one
        · rcases mem_cons.mp hb with rfl | hb
          · rfl
          · exact absurd hzb (h.back_not_zero b hb)
      rw [hbz]
      exact ha
    refine ⟨?_, ?_, fun a ha b hb => hcross a (hfront a ha) b (mem_append_right _ hb)⟩
    · exact pairwise_of_forall_mem_list fun a ha b hb =>
        hcross a (hfront a ha) b (mem_append_left _ hb)
    · rw [pairwise_cons]
      refine ⟨fun b hb hzb => absurd hzb (h.back_not_zero b hb), ?_⟩
      exact pairwise_of_forall_mem_list fun a _ b hb hzb =>
        absurd hzb (h.back_not_zero b hb)

end LastZero

/-! ## Only such axes in front -/

/-- Equal pairs in front are one group, with the first group behind if that is of their kind. -/
theorem groups_zeros (hz : z ≠ (1, 1)) (back : List (ℤ × ℤ)) :
    ∀ {front : List (ℤ × ℤ)}, (∀ a ∈ front, a = (1, 1) ∨ a = z) →
    ∃ n g, groups (front ++ z :: back) =
        (List.replicate (n + 1) z ++ g) :: (groups (front ++ z :: back)).tail ∧
      (groups back = g :: (groups (front ++ z :: back)).tail ∧ (∀ b ∈ g, kind b = kind z) ∨
        g = [] ∧ groups back = (groups (front ++ z :: back)).tail)
  | [], _ => by
    rw [nil_append, groups, if_neg hz]
    rcases pushAxis_cases z (groups back) (nil_not_mem_groups back) with
      ⟨b, g, rest, hgs, hkind, hpush⟩ | ⟨-, hpush⟩
    · rw [hpush]
      refine ⟨0, b :: g, rfl, Or.inl ⟨hgs, fun c hc => ?_⟩⟩
      rw [hkind]
      exact kind_groups _ (hgs ▸ mem_cons_self) c hc b mem_cons_self
    · rw [hpush]
      exact ⟨0, [], rfl, Or.inr ⟨rfl, rfl⟩⟩
  | a :: front, h => by
    obtain ⟨n, g, hgs, hback⟩ := groups_zeros hz back fun b hb => h b (mem_cons_of_mem a hb)
    rw [cons_append, groups]
    rcases h a mem_cons_self with rfl | rfl
    · rw [if_pos rfl]
      exact ⟨n, g, hgs, hback⟩
    · rw [if_neg hz]
      have hpush : pushAxis a (groups (front ++ a :: back)) =
          (List.replicate (n + 1 + 1) a ++ g) :: (groups (front ++ a :: back)).tail := by
        rw [hgs]
        exact if_pos rfl
      rw [hpush]
      exact ⟨n + 1, g, rfl, hback⟩

variable {g : List (ℤ × ℤ)} {a : ℤ × ℤ}

theorem dimInt64_zeros (hz : ZeroOne z)
    (hg : DimInt64 (merged g)) : ∀ n, DimInt64 (merged (List.replicate n z ++ g))
  | 0 => hg
  | n + 1 => by
    have ih := dimInt64_zeros hz hg n
    have hzero : IsInt64 0 := by decide
    rw [replicate_succ, cons_append, merged]
    obtain ⟨h1, h2, h3, h4, h5⟩ := ih
    rcases hz with rfl | rfl
    · have hdim : dimOf (0, 1) = ⟨0, 0, 1, 1, 0⟩ := by decide
      rw [hdim]
      unfold mulDim DimInt64
      simp only [mul_zero, mul_one]
      exact ⟨hzero, hzero, h3, h4, hzero⟩
    · have hdim : dimOf (1, 0) = ⟨0, 1, 0, 0, 1⟩ := by decide
      rw [hdim]
      unfold mulDim DimInt64
      simp only [mul_zero, mul_one]
      exact ⟨hzero, h2, hzero, hzero, h5⟩

theorem GroupFits.cons (h : GroupFits g) (ha : DimInt64 (merged (a :: g))) :
    GroupFits (a :: g) := by
  intro t ht hlen
  rcases suffix_cons_iff.mp ht with rfl | ht
  · exact ha
  · exact h t ht hlen

theorem groupFits_zeros (hz : ZeroOne z) (hg : DimInt64 (merged g)) (hfits : GroupFits g) :
    ∀ n, GroupFits (List.replicate n z ++ g)
  | 0 => hfits
  | n + 1 => by
    rw [replicate_succ, cons_append]
    exact (groupFits_zeros hz hg hfits n).cons (dimInt64_zeros hz hg (n + 1))

theorem mem_of_mem_rest {p : Prop} {gs rest : List (List (ℤ × ℤ))}
    (h : gs = g :: rest ∧ p ∨ g = [] ∧ gs = rest) : ∀ g' ∈ rest, g' ∈ gs := by
  rcases h with ⟨rfl, -⟩ | ⟨-, rfl⟩
  · exact fun g' hg' => mem_cons_of_mem g hg'
  · exact fun g' hg' => hg'

theorem count_zeros (hz : ZeroOne z) (n : ℕ) (g : List (ℤ × ℤ)) :
    count (List.replicate (n + 1) z ++ g) = 0 := by
  rw [replicate_succ]
  show out z * _ = 0
  rw [hz.out_eq, zero_mul]

theorem kind_zeros {n : ℕ} (hg : ∀ b ∈ g, kind b = kind z) :
    ∀ a ∈ List.replicate (n + 1) z ++ g, kind a = kind z := by
  intro a ha
  rcases mem_append.mp ha with ha | ha
  · rw [eq_of_mem_replicate ha]
  · exact hg a ha

/-- An empty group in front leaves the stride as that of the rest of its group. -/
theorem stride_zeros (S : Side) (hz : ZeroOne z) (hg : Grouped g)
    (hkind : ∀ b ∈ g, kind b = kind z) (n : ℕ) (l : List (ℤ × ℤ)) :
    stride (((List.replicate (n + 1) z ++ g).map S.size).prod, 0) l =
      stride ((g.map S.size).prod, count g) l := by
  have hcompat : ∀ a ∈ g, Compat a := fun a ha => (hg.positive a ha).2.2
  have h2 := two_le_count hg.ne_nil hg.positive hg.not_one
  have hall := kind_zeros (n := n) hkind
  have hcompat' : ∀ a ∈ List.replicate (n + 1) z ++ g, Compat a := by
    intro a ha
    rcases mem_append.mp ha with ha | ha
    · rw [eq_of_mem_replicate ha]
      exact hz.compat
    · exact hcompat a ha
  unfold stride
  dsimp only
  by_cases hown : kind z = S.own
  · -- this side has size one along all of these axes
    have hone : ∀ {t : List (ℤ × ℤ)}, (∀ a ∈ t, Compat a) → (∀ a ∈ t, kind a = kind z) →
        (t.map S.size).prod = 1 := by
      intro t ht htk
      refine prod_eq_one fun v hv => ?_
      obtain ⟨a, ha, rfl⟩ := mem_map.mp hv
      exact (S.reads_own (ht a ha) ((htk a ha).trans hown)).2
    rw [if_pos ⟨hone hcompat' hall, by decide⟩, if_pos ⟨hone hcompat hkind, by omega⟩]
  · -- this side has the sizes of the output
    have hsize : ∀ {t : List (ℤ × ℤ)}, (∀ a ∈ t, Compat a) → (∀ a ∈ t, kind a = kind z) →
        (t.map S.size).prod = count t := by
      intro t ht htk
      refine congrArg List.prod (map_congr_left fun a ha => ?_)
      refine (S.reads_other (ht a ha) ?_).2
      rw [htk a ha]
      exact hown
    rw [hsize hcompat' hall, hsize hcompat hkind, count_zeros hz, if_neg (by decide),
      if_neg fun hc => hc.2 hc.1]

theorem select_pairs_cons (size : Dim → ℤ) (d : Dim) (l : List Dim) (k : ℤ) :
    select (pairs size (d :: l)) k =
      k / outs (pairs size l) *
          stride (size d, d.resultShape) (pairs size l) +
        select (pairs size l) (k % outs (pairs size l)) := rfl

theorem outs_merged (size : Dim → ℤ) (gs : List (List (ℤ × ℤ))) :
    outs (pairs size (gs.map merged)) = count gs.flatten := by
  rw [outs_pairs, prod_resultShape]

theorem count_groups (l : List (ℤ × ℤ)) : count (groups l).flatten = count l := by
  rw [flatten_groups, ← flatten_entries, count_entries]

/-- The pairs of a zero and a one do not change which element is selected. -/
theorem select_zeros (S : Side) {back g : List (ℤ × ℤ)}
    {rest : List (List (ℤ × ℤ))} {k : ℤ} (hz : ZeroOne z) (hpos : Positive back)
    (hback : groups back = g :: rest ∧ (∀ b ∈ g, kind b = kind z) ∨ g = [] ∧ groups back = rest)
    (n : ℕ) (h0 : 0 ≤ k) (hk : k < count back) :
    select
        (pairs S.dimSize (merged (List.replicate (n + 1) z ++ g) :: rest.map merged)) k =
      select (back.map S.axis) k := by
  rw [← Side.select_entries hpos h0 hk, select_pairs_cons, S.size_merged, merged_resultShape,
    count_zeros hz]
  rcases hback with ⟨hgs, hkind⟩ | ⟨-, hgs⟩
  · have hentries : entries back = g :: rest := by
      unfold entries
      rw [hgs]
      rfl
    have hg := grouped hpos g (hgs ▸ mem_cons_self)
    rw [stride_zeros S hz hg hkind, hentries, map_cons, select_pairs_cons, S.size_merged,
      merged_resultShape]
  · rw [outs_merged, ← hgs, count_groups, Int.ediv_eq_zero_of_lt h0 hk, zero_mul, zero_add,
      Int.emod_eq_of_lt h0 hk]
    rcases entries_cases back with ⟨hnil, hentries⟩ | ⟨-, hentries⟩
    · have hzero : k = 0 := by
        rw [← count_groups, hnil] at hk
        have : k < 1 := hk
        omega
      rw [hzero, select_zero, select_zero]
    · rw [hentries]

theorem indexLoop_zero (acc k s : ℤ) (a b : ℤ × ℤ) (axes strides : List (ℤ × ℤ)) :
    indexLoop acc k (a :: b :: axes) ((s, 0) :: strides) = none := by
  rw [indexLoop.eq_4 _ _ _ _ _ _ _ _ (cons_ne_nil b axes)]
  exact if_pos rfl

namespace LastZero

variable {x y : List ℤ} {front back : List (ℤ × ℤ)} {z : ℤ × ℤ} {S : Side}

section

variable (h : LastZero (axes x y) front z back)
include h

theorem shapes_ne : x ≠ y := by
  rintro rfl
  have hz : z ∈ axes x x := by
    rw [h.split]
    exact mem_append_right _ mem_cons_self
  have hsame := same_of_mem_axes_self z hz
  rcases h.zero with rfl | rfl
  · exact absurd hsame (by decide)
  · exact absurd hsame (by decide)

/-- With only equal pairs in front, the index functions give the entries of the lists. -/
theorem sideAgrees (hfront : ∀ a ∈ front, a = (1, 1) ∨ a = z) (hover : (bcast x y).overflow = false)
    (hle : count back ≤ 2 ^ 63) (S : Side) : SideAgrees S x y (count back) := by
  intro k hk
  obtain ⟨n, g, hgs, hback⟩ := groups_zeros h.zero.ne_one back hfront
  rw [← h.split] at hgs hback
  have htail : ∀ g' ∈ (groups (axes x y)).tail, Grouped g' := fun g' hg' =>
    grouped h.positive g' (mem_of_mem_rest hback g' hg')
  have hhead : (groups (axes x y)).headD [] = List.replicate (n + 1) z ++ g := by rw [hgs]; rfl
  -- nothing but zeros and ones in the first group
  have hkind : ∀ b ∈ g, kind b = kind z := by
    rcases hback with ⟨-, hb⟩ | ⟨rfl, -⟩
    · exact hb
    · exact fun b hb => absurd hb not_mem_nil
  -- this side reads the first group at one place
  have hreads : ReadsOne S.dimSize S.dimRepeats (merged ((groups (axes x y)).headD [])) := by
    have hall := kind_zeros (n := n) hkind
    rw [hhead]
    refine Side.readsOne_group (fun a ha => ?_)
      (fun a ha b hb => (hall a ha).trans (hall b hb).symm)
      (Or.inr (by rw [count_zeros h.zero]; decide))
    have hmem := mem_of_mem_groups (l := axes x y) (hgs ▸ mem_cons_self) a ha
    exact h.compat a hmem.1
  have hint : IsInt64 k := ⟨by omega, by omega⟩
  have hones : listOf ((axes x y).map fun a => (S.size a, larger a)) =
      listOf (back.map fun a => (S.size a, larger a)) := by
    rw [h.split, append_cons, map_append]
    refine listOf_ones fun b hb => ?_
    obtain ⟨a, ha, rfl⟩ := mem_map.mp hb
    rcases mem_append.mp ha with ha | ha
    · rcases hfront a ha with rfl | rfl
      · exact (by decide : larger (1, 1) = 1)
      · exact h.zero.larger_eq
    · rw [mem_singleton.mp ha]
      exact h.zero.larger_eq
  have hentries : (entries (axes x y)).map merged =
      merged (List.replicate (n + 1) z ++ g) :: (groups (axes x y)).tail.map merged := by
    unfold entries
    rw [hhead]
    rfl
  rw [hones, h.positive.entries hk, int64, if_pos hint, Option.bind_some,
    S.index_bcast h.shapes_ne h.compat hover hreads htail (by omega) hint.2, hentries,
    select_zeros S h.zero h.positive hback n (by omega) hk]

/-- With only equal pairs in front, nothing overflows if the parts behind fit. -/
theorem not_overflow (hfront : ∀ a ∈ front, a = (1, 1) ∨ a = z) (hout : ∀ a ∈ back, out a < 2 ^ 63)
    (hx : InsFit (xSizes (axes x y))) (hy : InsFit (ySizes (axes x y)))
    (hle : count back ≤ 2 ^ 63) (htail : count (groups (axes x y)).tail.flatten < 2 ^ 63) :
    (bcast x y).overflow = false := by
  obtain ⟨n, g, hgs, hback⟩ := groups_zeros h.zero.ne_one back hfront
  rw [← h.split] at hgs hback
  have hrest := mem_of_mem_rest hback
  have hsuffix : ∀ f : ℤ × ℤ → ℤ × ℤ, back.map f <:+ (axes x y).map f := by
    intro f
    rw [h.split, append_cons, map_append]
    exact suffix_append _ _
  have hfits := fits_of_insFit h.positive (fun t ht => hx t (ht.trans (hsuffix _)))
    (fun t ht => hy t (ht.trans (hsuffix _))) hle
  have hall := ((fits_iff h.positive hout).mp hfits).1
  have hg : DimInt64 (merged g) ∧ GroupFits g := by
    rcases hback with ⟨hb, -⟩ | ⟨rfl, -⟩
    · have hmem : g ∈ groups back := hb ▸ mem_cons_self
      have hcount := hfits.1
      rw [hb] at hcount
      exact ⟨(dimInt64_merged (grouped h.positive g hmem).positive).mpr hcount, hall g hmem⟩
    · refine ⟨by decide, fun t ht hlen => ?_⟩
      rw [suffix_nil.mp ht] at hlen
      exact absurd hlen (by decide)
  refine (overflow_iff h.shapes_ne h.compat fun g' hg' =>
    grouped h.positive g' (hrest g' hg')).mpr ⟨fun g' hg' => ?_, htail⟩
  rw [hgs] at hg'
  rcases mem_cons.mp hg' with rfl | hg'
  · exact groupFits_zeros h.zero hg.1 hg.2 (n + 1)
  · exact hall g' (hrest g' hg')

/-! ## Other axes in front -/

theorem tail_ne_zero {v : ℤ} (hindex : S.index (bcast x y) 0 = some v) :
    count (groups (axes x y)).tail.flatten ≠ 0 := by
  intro hc
  rw [bcast_entries h.shapes_ne h.compat, S.index_strided] at hindex
  split at hindex
  next => exact absurd hindex (by simp)
  next =>
    have hentries : (entries (axes x y)).map merged =
      merged ((groups (axes x y)).headD []) :: (groups (axes x y)).tail.map merged := rfl
    match hgs : (groups (axes x y)).tail with
    | [] =>
      rw [hgs] at hc
      exact absurd hc (by decide)
    | g :: gs =>
      rw [← prod_resultShape] at hc
      dsimp only at hindex
      rw [hentries, stridesOf_cons, stridesOf_cons, hc, hgs, zip_cons_cons, map_cons,
        map_cons, map_cons, indexLoop_zero] at hindex
      exact absurd hindex (by simp)

end

theorem not_mem_of_count_ne_zero {l : List (ℤ × ℤ)} (hz : ZeroOne z) (h : count l ≠ 0) : z ∉ l :=
  fun hc => h (prod_eq_zero (hz.out_eq ▸ mem_map.mpr ⟨z, hc, rfl⟩))

section

variable (h : LastZero (axes x y) front z back)
include h

section

variable (htail : count (groups (axes x y)).tail.flatten ≠ 0)
include htail

theorem head_split :
    ∃ c, (groups (axes x y)).headD [] = front.filter (· ≠ (1, 1)) ++ z :: c ∧
      back.filter (· ≠ (1, 1)) = c ++ (groups (axes x y)).tail.flatten := by
  have hz := not_mem_of_count_ne_zero h.zero htail
  have hflat : (groups (axes x y)).headD [] ++ (groups (axes x y)).tail.flatten =
      front.filter (· ≠ (1, 1)) ++ z :: back.filter (· ≠ (1, 1)) := by
    have hentries := flatten_entries (axes x y)
    rw [h.split, filter_append, filter_cons_of_pos (by simp [h.zero.ne_one])] at hentries
    rw [← hentries, h.split]
    rfl
  rcases append_eq_append_iff.mp hflat with ⟨c, -, hc⟩ | ⟨c, hc, hrest⟩
  · rw [hc] at hz
    exact absurd (mem_append_right _ mem_cons_self) hz
  · cases c with
    | nil =>
      rw [nil_append] at hrest
      rw [← hrest] at hz
      exact absurd mem_cons_self hz
    | cons b c =>
      obtain ⟨rfl, hback⟩ := List.cons.inj hrest
      exact ⟨c, hc, hback⟩

theorem tail_grouped :
    ∀ g ∈ (groups (axes x y)).tail, Grouped g := by
  intro g hg
  obtain ⟨c, -, hback⟩ := h.head_split htail
  have hmem := mem_of_mem_tail hg
  refine ⟨?_, fun a ha => ?_, fun hc => (mem_of_mem_groups hmem _ hc).2 rfl, kind_groups g hmem⟩
  · rintro rfl
    exact nil_not_mem_groups _ hmem
  · have hin : a ∈ back.filter (· ≠ (1, 1)) := by
      rw [hback]
      exact mem_append_right _ (mem_flatten.mpr ⟨g, hg, ha⟩)
    exact h.positive a (mem_filter.mp hin).1

theorem head_mem :
    (groups (axes x y)).headD [] ∈ groups (axes x y) := by
  obtain ⟨c, hhead, -⟩ := h.head_split htail
  match hgs : groups (axes x y) with
  | [] =>
    rw [hgs] at hhead
    exact absurd hhead.symm (by simp)
  | g :: gs => exact mem_cons_self

end

/-- The empty input is read behind its first element once the index reaches the elements behind the
first group. -/
theorem index_pos (hown : kind z ≠ S.own) (hover : (bcast x y).overflow = false)
    (htail : count (groups (axes x y)).tail.flatten ≠ 0) {k : ℤ} (hk : IsInt64 k)
    (hle : count (groups (axes x y)).tail.flatten ≤ k) :
    ∃ v, S.index (bcast x y) k = some v ∧ 0 < v := by
  obtain ⟨c, hhead, -⟩ := h.head_split htail
  have hgrouped := h.tail_grouped htail
  have hmem : z ∈ (groups (axes x y)).headD [] := by
    rw [hhead]
    exact mem_append_right _ mem_cons_self
  have hzero : count ((groups (axes x y)).headD []) = 0 := by
    by_contra hc
    exact not_mem_of_count_ne_zero h.zero hc hmem
  have hkind := kind_groups _ (h.head_mem htail)
  have hcompat : ∀ a ∈ (groups (axes x y)).headD [], Compat a := fun a ha =>
    h.compat a (mem_of_mem_groups (h.head_mem htail) a ha).1
  have hreads := Side.readsOne_group (S := S) hcompat hkind (Or.inr (by rw [hzero]; decide))
  have hsize : (((groups (axes x y)).headD []).map S.size).prod = 0 := by
    refine prod_eq_zero (mem_map.mpr ⟨z, hmem, ?_⟩)
    rw [(S.reads_other h.zero.compat hown).2, h.zero.out_eq]
  have hT : 0 < count (groups (axes x y)).tail.flatten := (positive_flatten hgrouped).count_pos
  have hentries : (entries (axes x y)).map merged =
    merged ((groups (axes x y)).headD []) :: (groups (axes x y)).tail.map merged := rfl
  have hpairs : ∀ a ∈ pairs S.dimSize ((groups (axes x y)).tail.map merged), 0 < a.1 ∧ 0 < a.2 := by
    intro a ha
    obtain ⟨d, hd, rfl⟩ := mem_map.mp ha
    have hr := S.reads_grouped hgrouped
    exact ⟨hr.size_pos d hd, (hr d hd).1⟩
  refine ⟨_, S.index_bcast h.shapes_ne h.compat hover hreads hgrouped (by omega) hk.2, ?_⟩
  rw [hentries, select_pairs_cons, S.size_merged, hsize, outs_merged, stride, if_neg (by simp)]
  have hstep : 1 ≤ k / count (groups (axes x y)).tail.flatten :=
    (Int.le_ediv_iff_mul_le hT).mpr (by omega)
  have hins := RowMajor.ins_pos fun a ha => (hpairs a ha).1
  have hrest := RowMajor.select_nonneg hpairs (Int.emod_nonneg k hT.ne')
  nlinarith

end

theorem two_le_larger (hz : ZeroOne z) (hkind : kind a = kind z) (ha : Compat a) (hx : 0 ≤ a.1)
    (hy : 0 ≤ a.2) (hne : a ≠ z) : 2 ≤ larger a := by
  obtain ⟨x, y⟩ := a
  unfold larger
  rcases hz with rfl | rfl
  · have h := (kind_eq_yOne ha).mp (hkind.trans (by decide))
    simp only [ne_eq, Prod.mk.injEq] at hne hx hy h ⊢
    omega
  · have h := kind_eq_xOne.mp (hkind.trans (by decide))
    simp only [ne_eq, Prod.mk.injEq] at hne hx hy h ⊢
    omega

theorem entry_eq_zero {tl : List (ℤ × ℤ)} (ha : 2 ≤ larger a) (f₁ : List (ℤ × ℤ)) (hz : z ∈ tl)
    (hsize : S.size z = 0) :
    (listOf ((f₁ ++ a :: tl).map fun a => (S.size a, larger a)))[(listOf
      (tl.map fun a => (S.size a, larger a))).length]? = some 0 := by
  have hins : ins (tl.map fun a => (S.size a, larger a)) = 0 := by
    unfold ins
    rw [map_map]
    exact prod_eq_zero (mem_map.mpr ⟨z, hz, hsize⟩)
  have hcopy := listOf_copy (a := (S.size a, larger a))
    (l := tl.map fun a => (S.size a, larger a)) ha
  have hshift : shift (S.size a, larger a) (tl.map fun a => (S.size a, larger a)) 1 = 0 := by
    unfold shift
    rw [hins, mul_zero, ite_self]
  rw [hshift] at hcopy
  obtain ⟨t, ht⟩ := listOf_append ((a :: tl).map fun a => (S.size a, larger a))
    (f₁.map fun a => (S.size a, larger a))
  rw [map_append, ← ht, getElem?_append_left]
  · exact hcopy
  · exact (List.getElem?_eq_some_iff.mp hcopy).1

section

variable (h : LastZero (axes x y) front z back) (htail : count (groups (axes x y)).tail.flatten ≠ 0)
include h htail

theorem tail_le :
    count (groups (axes x y)).tail.flatten ≤ (back.map larger).prod := by
  obtain ⟨c, -, hback⟩ := h.head_split htail
  have hcount : count (back.filter (· ≠ (1, 1))) = (back.map larger).prod := by
    rw [← flatten_entries, count_entries]
    exact congrArg List.prod (map_congr_left fun a ha => (h.positive.larger_eq_out a ha).symm)
  rw [← hcount]
  exact count_le_of_suffix (fun a ha => h.positive a (mem_filter.mp ha).1)
    (hback ▸ suffix_append _ _)

theorem exists_large (hall : ¬ ∀ a ∈ front, a = (1, 1) ∨ a = z) : ∃ a ∈ front, 2 ≤ larger a := by
  push Not at hall
  obtain ⟨a, ha, hone, hne⟩ := hall
  obtain ⟨c, hhead, -⟩ := h.head_split htail
  have hin : a ∈ front.filter (· ≠ (1, 1)) := mem_filter.mpr ⟨ha, by simpa using hone⟩
  have hkind : kind a = kind z := by
    refine kind_groups _ (h.head_mem htail) a ?_ z ?_
    · rw [hhead]
      exact mem_append_left _ hin
    · rw [hhead]
      exact mem_append_right _ mem_cons_self
  obtain ⟨hcompat, hx, hy⟩ := h.sizes a (h.split ▸ mem_append_left _ ha)
  exact ⟨a, ha, two_le_larger h.zero hkind hcompat hx.1 hy.1 hne⟩

end

theorem lt_prod_larger {f₁ tl : List (ℤ × ℤ)} (h : ∀ b ∈ f₁ ++ a :: tl, 1 ≤ larger b)
    (ha : 2 ≤ larger a) :
    (tl.map larger).prod < ((f₁ ++ a :: tl).map larger).prod := by
  have hfront : 0 < (f₁.map larger).prod := prod_pos fun b hb => h b (mem_append_left _ hb)
  have htl : 0 < (tl.map larger).prod := prod_pos fun b hb =>
    h b (mem_append_right _ (mem_cons_of_mem a hb))
  rw [map_append, prod_append, map_cons, prod_cons]
  have h2 : (tl.map larger).prod < larger a * (tl.map larger).prod := by nlinarith
  nlinarith

/-- If the empty input is read at the entries of its list, there is nothing but equal pairs in
front. -/
theorem front_eq (h : LastZero (axes x y) front z back) (hown : kind z ≠ S.own)
    (hagree : SideAgrees S x y ((axes x y).map larger).prod) :
    ∀ a ∈ front, a = (1, 1) ∨ a = z := by
  have hpos : 0 < ((axes x y).map larger).prod := prod_pos h.larger_pos
  have htail := h.tail_ne_zero (hagree.index_zero hpos)
  have hover := hagree.not_overflow hpos
  by_contra hall
  -- the innermost axis that repeats the lists behind it
  obtain ⟨f₁, a, f₂, hsplit, ha, -⟩ := exists_last (h.exists_large htail hall)
  obtain ⟨tl, htl⟩ : ∃ tl, tl = f₂ ++ z :: back := ⟨_, rfl⟩
  have hl : axes x y = f₁ ++ a :: tl := by
    rw [h.split, hsplit, htl, append_assoc, cons_append]
  have hmem : ∀ b ∈ f₁ ++ a :: tl, 1 ≤ larger b := fun b hb => h.larger_pos b (hl ▸ hb)
  have hbehind : ∀ b ∈ tl, 1 ≤ larger b := fun b hb =>
    hmem b (mem_append_right _ (mem_cons_of_mem a hb))
  have hz : z ∈ tl := htl ▸ mem_append_right _ mem_cons_self
  have hlen := length_sizes S.size hbehind
  have hlt : (tl.map larger).prod < ((axes x y).map larger).prod := hl ▸ lt_prod_larger hmem ha
  have hback : (back.map larger).prod ≤ (tl.map larger).prod := by
    have h₂ : 0 < (f₂.map larger).prod := prod_pos fun b hb =>
      hbehind b (htl ▸ mem_append_left _ hb)
    have h₃ : 0 < (back.map larger).prod := prod_pos fun b hb =>
      hbehind b (htl ▸ mem_append_right _ (mem_cons_of_mem z hb))
    rw [htl, map_append, prod_append, map_cons, prod_cons, h.zero.larger_eq]
    nlinarith
  have hentry := entry_eq_zero (S := S) ha f₁ hz
    ((S.reads_other h.zero.compat hown).2.trans h.zero.out_eq)
  have hget := hagree _ (hlen.trans_lt hlt)
  rw [hl, hentry] at hget
  obtain ⟨k, hk, hindex⟩ := Option.bind_eq_some_iff.mp hget.symm
  rw [int64] at hk
  split at hk
  next hint =>
    obtain rfl := Option.some.inj hk
    have hle := (h.tail_le htail).trans hback
    obtain ⟨v, hv, hvpos⟩ := h.index_pos hown hover htail hint (hle.trans_eq hlen.symm)
    rw [hv] at hindex
    have := Option.some.inj hindex
    omega
  next => exact absurd hk (by simp)

end LastZero

/-! ## The exact condition -/

/-- The case with a zero against a one: the lists are right just when all such pairs are the same
and in front. -/
theorem listsAgree_zeros {x y o : List ℤ} {info : Info} {front back : List (ℤ × ℤ)}
    (h : generateBcastInfo x y o = some info) (hz : LastZero (axes x y) front z back) :
    ListsAgree x y info ↔ ListsFit (axes x y) o := by
  have ho := (info_of_generates h).2.1
  have hzero : 0 ∉ o := by
    rw [ho]
    intro hc
    obtain ⟨a, ha, hla⟩ := mem_map.mp hc
    have := hz.larger_pos a ha
    omega
  have hlast : o.getLast? ≠ some 0 := fun hc => hzero (mem_of_getLast? hc)
  have hlenx := length_sizes Prod.fst hz.larger_pos
  have hleny := length_sizes Prod.snd hz.larger_pos
  rw [← ho] at hlenx hleny
  have hpos : 0 < o.prod := ho ▸ prod_pos hz.larger_pos
  unfold ListsFit
  rw [if_neg hzero, listsAgree_iff_entries h hz.sizes hlast, hz.zerosInFront_iff]
  constructor
  · -- the first entry needs an index, hence no overflow
    intro ⟨⟨hx, hy⟩, ⟨hlen, _⟩, hagreex, hagreey⟩
    have htail := hz.tail_ne_zero (hagreex.index_zero hpos)
    have hfits := (overflow_iff hz.shapes_ne hz.compat (hz.tail_grouped htail)).mp
      (hagreex.not_overflow hpos)
    refine ⟨prod_le_of_sideAgrees hagreex hlen, hfits.2, hx, hy, ?_⟩
    rw [ho] at hagreex hagreey
    rcases hz.zero with rfl | rfl
    · exact hz.front_eq (S := xSide) (by decide) hagreex
    · exact hz.front_eq (S := ySide) (by decide) hagreey
  · intro ⟨hle, htail, hx, hy, hfront⟩
    -- in front of the zero the larger sizes are ones
    have hones : (front.map larger).prod = 1 := by
      refine prod_eq_one fun v hv => ?_
      obtain ⟨a, ha, rfl⟩ := mem_map.mp hv
      rcases hfront a ha with rfl | rfl
      · exact (by decide : larger (1, 1) = 1)
      · exact hz.zero.larger_eq
    have hcount : o.prod = count back := by
      rw [ho, hz.split, map_append, prod_append, hones, map_cons, prod_cons,
        hz.zero.larger_eq, one_mul, one_mul]
      exact congrArg List.prod (map_congr_left hz.positive.larger_eq_out)
    have hout : ∀ a ∈ back, out a < 2 ^ 63 := by
      intro a ha
      obtain ⟨-, hx, hy⟩ := hz.sizes a (hz.split ▸ mem_append_right _ (mem_cons_of_mem z ha))
      unfold out
      split <;> omega
    have hover := hz.not_overflow hfront hout hx hy (hcount ▸ hle) htail
    rw [hcount]
    rw [hcount] at hlenx hleny hle
    exact ⟨⟨hx, hy⟩, ⟨hlenx, hleny⟩, hz.sideAgrees hfront hover hle xSide,
      hz.sideAgrees hfront hover hle ySide⟩

/-- The shapes are those that `GenerateBcastInfo` accepts. -/
theorem listsAgree_iff {x y o : List ℤ} {info : Info} (hx : ∀ d ∈ x, 0 ≤ d ∧ d < 2 ^ 63)
    (hy : ∀ d ∈ y, 0 ≤ d ∧ d < 2 ^ 63) (h : generateBcastInfo x y o = some info) :
    ListsAgree x y info ↔ ListsFit (axes x y) o := by
  have ho := (info_of_generates h).2.1
  have hsizes : Sizes (axes x y) := fun a ha =>
    ⟨(info_of_generates h).1 a ha,
      forall_axes (p := fun d => 0 ≤ d ∧ d < 2 ^ 63) (by decide) hx hy a ha⟩
  by_cases hzero : 0 ∈ o
  · unfold ListsFit
    rw [if_pos hzero]
    have hprod : o.prod = 0 := prod_eq_zero hzero
    constructor
    · intro hagree
      by_contra hlast
      have hlen := ((listsAgree_iff_entries h hsizes hlast).mp hagree).2.1.1
      rw [hprod] at hlen
      exact length_ne_zero _ (by exact_mod_cast hlen)
    · intro hlast
      refine ⟨[], [], bcastIndexes_empty h hsizes hlast, ?_⟩
      rw [(info_of_generates h).2.2.2.2, hprod]
      exact ⟨rfl, rfl, fun k hk => absurd hk (by omega)⟩
  · have hlarger : ∀ a ∈ axes x y, 1 ≤ larger a := by
      intro a ha
      have hne : larger a ≠ 0 := fun hc => hzero (ho ▸ mem_map.mpr ⟨a, ha, hc⟩)
      have hpos := (hsizes a ha).2.1.1
      unfold larger at hne ⊢
      omega
    by_cases hz : ∃ a ∈ axes x y, ZeroOne a
    · obtain ⟨front, z, back, hsplit, hzo, hback⟩ := exists_last hz
      have hmem : ∀ a ∈ back, a ∈ axes x y := fun a ha =>
        hsplit ▸ mem_append_right _ (mem_cons_of_mem z ha)
      refine listsAgree_zeros h ⟨hsplit, hzo, ?_, hsizes, hlarger⟩
      refine positive_of_larger (fun a ha => hsizes a (hmem a ha)) (fun a ha => ?_) hback
      have := hlarger a (hmem a ha)
      omega
    · push Not at hz
      refine listsAgree_positive h hsizes (positive_of_larger hsizes (fun a ha => ?_) hz)
      have := hlarger a ha
      omega

theorem listsAgree_iff_row :
    ListsAgree [2, 1] [3] ⟨[2, 1], [1, 3], [2, 3], [1, 3], [2, 1]⟩ ↔
      ListsFit (axes [2, 1] [3]) [2, 3] :=
  listsAgree_iff (by decide) (by decide) (by decide)

/-- The lists have two entries each for an output without elements. -/
theorem listsAgree_refutes :
    generateBcastInfo [0, 2] [0, 2] [0, 2] = some ⟨[0, 2], [0, 2], [0, 2], [1, 1], [1, 1]⟩ ∧
      ¬ ListsAgree [0, 2] [0, 2] ⟨[0, 2], [0, 2], [0, 2], [1, 1], [1, 1]⟩ := by
  refine ⟨by decide, ?_⟩
  rintro ⟨xs, ys, hlists, hlen, -⟩
  have hxs : bcastIndexes ⟨[0, 2], [0, 2], [0, 2], [1, 1], [1, 1]⟩ = some ([0, 1], [0, 1]) := by
    decide
  rw [hxs] at hlists
  obtain ⟨rfl, rfl⟩ := Prod.mk.inj (Option.some.inj hlists)
  exact absurd hlen (by decide)

end OpBase.Shape.Bcast
