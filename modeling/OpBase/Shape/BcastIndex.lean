import OpBase.Shape.BcastAxes

/-!
# The elements that a broadcast reads

`GetBroadcastXIndex` and `GetBroadcastYIndex` walk over the merged axes with the strides that
the constructor of `Bcast` made. The sizes and strides are products of `int64_t` that nothing
checks; where all of them are numbers of `int64_t`, the walk comes to the element that
broadcasting in row-major order reads, for the merging of `groups` leaves every element where
it is (`select_merged`).

> `mapsRight_iff`: the merged shapes and both index functions are right if and only if the
> output has fewer than `2 ^ 63` elements along the first merged axis, and along all axes
> behind that.
-/

namespace OpBase.Shape.Bcast

open List OpBase.Lib
open Option (bind_some)
open Dim (resultShape xReshape yReshape)
open RowMajor (ins outs select select_zero)

/-- What an input is along an axis, and what it is read as. -/
def xAxis (a : ℤ × ℤ) : ℤ × ℤ := (a.1, out a)
def yAxis (a : ℤ × ℤ) : ℤ × ℤ := (a.2, out a)

/-- The number of elements of the output along some axes. -/
def count (l : List (ℤ × ℤ)) : ℤ := (l.map out).prod

/-! ## The walk over the axes -/

/-- The axis of an input, of this size and repetition, is read in full and not repeated, or has
one element and is repeated. -/
def ReadsOne (size repeats : Dim → ℤ) (d : Dim) : Prop :=
  (repeats d = 1 ∧ size d = d.resultShape) ∨ (repeats d ≠ 1 ∧ size d = 1 ∧ d.resultShape ≠ 1)

def Reads (size repeats : Dim → ℤ) (l : List Dim) : Prop :=
  ∀ d ∈ l, 0 < d.resultShape ∧ ReadsOne size repeats d

variable {size repeats : Dim → ℤ}

theorem Reads.tail {d : Dim} {l : List Dim}
    (h : Reads size repeats (d :: l)) : Reads size repeats l :=
  fun e he => h e (mem_cons_of_mem d he)

theorem Reads.size_pos {l : List Dim} (h : Reads size repeats l) : ∀ d ∈ l, 0 < size d := by
  intro d hd
  obtain ⟨hpos, ⟨-, hsize⟩ | ⟨-, hsize, -⟩⟩ := h d hd
  · rw [hsize]
    exact hpos
  · rw [hsize]
    exact zero_lt_one

theorem Reads.size_le {l : List Dim} (h : Reads size repeats l) :
    ∀ d ∈ l, size d ≤ d.resultShape := by
  intro d hd
  obtain ⟨hpos, ⟨-, hsize⟩ | ⟨-, hsize, -⟩⟩ := h d hd
  · exact hsize.le
  · rw [hsize]
    exact hpos

theorem prod_pos {α : Type*} {f : α → ℤ} : ∀ {l : List α}, (∀ a ∈ l, 0 < f a) → 0 < (l.map f).prod
  | [], _ => zero_lt_one
  | a :: l, h => by
    rw [map_cons, prod_cons]
    exact mul_pos (h a mem_cons_self) (prod_pos fun b hb => h b (mem_cons_of_mem a hb))

theorem prod_le {α : Type*} {f g : α → ℤ} : ∀ {l : List α}, (∀ a ∈ l, 0 < f a) →
    (∀ a ∈ l, f a ≤ g a) → (l.map f).prod ≤ (l.map g).prod
  | [], _, _ => le_refl 1
  | a :: l, h, hle => by
    have htail : ∀ b ∈ l, 0 < f b := fun b hb => h b (mem_cons_of_mem a hb)
    have ha := h a mem_cons_self
    have hga := hle a mem_cons_self
    rw [map_cons, prod_cons, map_cons, prod_cons]
    exact mul_le_mul hga (prod_le htail fun b hb => hle b (mem_cons_of_mem a hb))
      (prod_pos htail).le (ha.le.trans hga)

/-- The stride of an axis is the number of elements behind it. -/
theorem stridesOf_cons (size : Dim → ℤ) : ∀ (d : Dim) (l : List Dim),
    stridesOf size (d :: l) = (l.map size).prod :: stridesOf size l
  | _, [] => rfl
  | d, e :: l => by
    have ih := stridesOf_cons size e l
    rw [stridesOf, ih, map_cons, prod_cons, mul_comm]
    exact ih

theorem int64_of_le {v b : ℤ} (h0 : 0 ≤ v) (hle : v ≤ b) (hb : b < 2 ^ 63) : int64 v = some v :=
  if_pos ⟨by omega, by omega⟩

/-- One axis with others behind it. No step of the input is longer than that of the output, and
so what `inputIndex` gains `index` loses. -/
theorem indexLoop_cons {acc k size repeats result I O step : ℤ} (axes strides : List (ℤ × ℤ))
    (hstep : step = k / O * if size = 1 ∧ result ≠ 1 then 0 else I) (hne : axes ≠ [])
    (hreads : (repeats = 1 ∧ size = result) ∨ (repeats ≠ 1 ∧ size = 1 ∧ result ≠ 1))
    (hI : 0 < I) (hsizeLe : I ≤ O) (hacc : 0 ≤ acc) (hk : 0 ≤ k) (hlt : acc + k < 2 ^ 63) :
    0 ≤ step ∧ acc + step + k % O ≤ acc + k ∧
      indexLoop acc k ((size, repeats) :: axes) ((I, O) :: strides) =
        indexLoop (acc + step) (k % O) axes strides := by
  have hO : 0 < O := hI.trans_le hsizeLe
  have hidx : 0 ≤ k / O := Int.ediv_nonneg hk hO.le
  have hcut : O * (k / O) + k % O = k := Int.mul_ediv_add_emod k O
  have hmod : 0 ≤ k % O := Int.emod_nonneg k hO.ne'
  have hin : 0 ≤ k / O * I := mul_nonneg hidx hI.le
  have hle : k / O * I ≤ k / O * O := mul_le_mul_of_nonneg_left hsizeLe hidx
  have hback : k / O * O = O * (k / O) := mul_comm _ _
  have hidxLe : k / O ≤ k := Int.ediv_le_self O hk
  have hrest : k - k / O * O = k % O := by omega
  rw [indexLoop.eq_4 _ _ _ _ _ _ _ _ hne, if_neg hO.ne', Int.tdiv_eq_ediv_of_nonneg hk,
    int64_of_le hidx (hidxLe.trans (by omega)) hlt]
  dsimp only [Option.bind_eq_bind, bind_some]
  rcases hreads with ⟨hrep, hsize⟩ | ⟨hrep, hsize, hout⟩
  · -- this side has the dimension and steps on
    rw [if_neg (fun h : size = 1 ∧ result ≠ 1 => h.2 (hsize ▸ h.1))] at hstep
    rw [← hstep] at hin hle ⊢
    refine ⟨hin, by omega, ?_⟩
    rw [if_pos hrep, int64_of_le hin (b := acc + k) (by omega) hlt, bind_some,
      int64_of_le (b := acc + k) (by omega) (by omega) hlt, bind_some,
      int64_of_le (b := acc + k) (by omega) (by omega) hlt, bind_some, hrest,
      int64_of_le (b := acc + k) hmod (by omega) hlt, bind_some]
  · -- this side repeats the dimension and stays
    rw [if_pos ⟨hsize, hout⟩, mul_zero] at hstep
    rw [hstep, add_zero]
    refine ⟨le_rfl, by omega, ?_⟩
    rw [if_neg hrep, if_pos hsize, int64_of_le (b := acc + k) (by omega) (by omega) hlt,
      bind_some, hrest, int64_of_le (b := acc + k) hmod (by omega) hlt, bind_some]

theorem indexLoop_last {acc k size repeats result : ℤ} {strides : List (ℤ × ℤ)}
    (hreads : (repeats = 1 ∧ size = result) ∨ (repeats ≠ 1 ∧ size = 1 ∧ result ≠ 1))
    (hacc : 0 ≤ acc) (hk : 0 ≤ k) (hlt : acc + k < 2 ^ 63) :
    indexLoop acc k [(size, repeats)] strides = some (acc + select [(size, result)] k) := by
  have hselect : select [(size, result)] k = k * if size = 1 ∧ result ≠ 1 then 0 else 1 := by
    show k / 1 * (if size = 1 ∧ result ≠ 1 then 0 else 1) + 0 = _
    rw [Int.ediv_one, add_zero]
  rw [hselect]
  unfold indexLoop
  rcases hreads with ⟨hrep, hsize⟩ | ⟨hrep, hsize, hout⟩
  · rw [if_pos hrep, if_neg (fun h : size = 1 ∧ result ≠ 1 => h.2 (hsize ▸ h.1)), mul_one]
    exact int64_of_le (by omega) le_rfl hlt
  · rw [if_neg hrep, if_pos hsize, if_pos ⟨hsize, hout⟩, mul_zero, add_zero]

/-- What `RowMajor` has for the axes of an input. -/
def pairs (size : Dim → ℤ) (l : List Dim) : List (ℤ × ℤ) := l.map fun d => (size d, d.resultShape)

theorem ins_pairs (size : Dim → ℤ) (l : List Dim) : ins (pairs size l) = (l.map size).prod := by
  unfold ins pairs
  rw [map_map]
  rfl

theorem outs_pairs (size : Dim → ℤ) (l : List Dim) :
    outs (pairs size l) = (l.map resultShape).prod := by
  unfold outs pairs
  rw [map_map]
  rfl

/-- What the walk adds to `inputIndex` is the element that the axes select. The output may have no
elements along the first one. -/
theorem indexLoop_eq : ∀ {d : Dim} {l : List Dim} {acc k : ℤ},
    ReadsOne size repeats d → Reads size repeats l → 0 ≤ acc → 0 ≤ k → acc + k < 2 ^ 63 →
    indexLoop acc k ((d :: l).map fun d => (size d, repeats d))
        ((stridesOf size (d :: l)).zip (stridesOf resultShape (d :: l))) =
      some (acc + select (pairs size (d :: l)) k)
  | _, [], _, _, hd, _, hacc, hk, hlt => indexLoop_last hd hacc hk hlt
  | d, e :: l, acc, k, hd, hreads, hacc, hk, hlt => by
    have hI : 0 < ((e :: l).map size).prod := prod_pos hreads.size_pos
    have hsizeLe : ((e :: l).map size).prod ≤ ((e :: l).map resultShape).prod :=
      prod_le hreads.size_pos hreads.size_le
    obtain ⟨hstep, hle, hloop⟩ := indexLoop_cons ((e :: l).map fun d => (size d, repeats d))
      ((stridesOf size (e :: l)).zip (stridesOf resultShape (e :: l)))
      rfl (by simp) hd hI hsizeLe hacc hk hlt
    have hselect : select (pairs size (d :: e :: l)) k =
        k / ((e :: l).map resultShape).prod *
            (if size d = 1 ∧ d.resultShape ≠ 1 then 0 else ((e :: l).map size).prod) +
          select (pairs size (e :: l)) (k % ((e :: l).map resultShape).prod) := by
      rw [← outs_pairs size, ← ins_pairs size]
      rfl
    rw [stridesOf_cons size d, stridesOf_cons resultShape d, zip_cons_cons,
      map_cons, hloop, hselect, ← add_assoc]
    exact indexLoop_eq (hreads e mem_cons_self).2 hreads.tail (by omega)
      (Int.emod_nonneg k (hI.trans_le hsizeLe).ne') (by omega)

/-! ## Merged axes -/

/-- The axes of two shapes that broadcast, none of them empty. -/
def Positive (l : List (ℤ × ℤ)) : Prop := ∀ a ∈ l, 1 ≤ a.1 ∧ 1 ≤ a.2 ∧ Compat a

variable {a : ℤ × ℤ} {l : List (ℤ × ℤ)}

theorem Positive.tail (h : Positive (a :: l)) : Positive l :=
  fun b hb => h b (mem_cons_of_mem a hb)

theorem out_pos (hx : 1 ≤ a.1) (hy : 1 ≤ a.2) : 0 < out a := by
  unfold out
  split
  · exact hy
  · exact hx

theorem out_of_same (h : a.1 = a.2) : out a = a.1 := by
  unfold out
  split
  · exact h.symm
  · rfl

theorem kind_eq_same : kind a = .same ↔ a.1 = a.2 := by
  unfold kind
  by_cases h : a.1 = a.2
  · rw [if_pos h]
    exact ⟨fun _ => h, fun _ => rfl⟩
  · rw [if_neg h]
    refine ⟨fun hc => ?_, fun hc => absurd hc h⟩
    split at hc <;> exact absurd hc (by decide)

theorem kind_eq_xOne : kind a = .xOne ↔ a.1 = 1 ∧ a.2 ≠ 1 := by
  unfold kind
  constructor
  · intro h
    split at h
    next => exact absurd h (by decide)
    next hne =>
      split at h
      next hx => exact ⟨hx, fun hy => hne (hx.trans hy.symm)⟩
      next => exact absurd h (by decide)
  · intro ⟨hx, hy⟩
    rw [if_neg (fun hc => hy (hc.symm.trans hx)), if_pos hx]

theorem kind_eq_yOne (h : Compat a) : kind a = .yOne ↔ a.1 ≠ 1 ∧ a.2 = 1 := by
  unfold kind
  constructor
  · intro hk
    split at hk
    next => exact absurd hk (by decide)
    next hne =>
      split at hk
      next => exact absurd hk (by decide)
      next hx => exact ⟨hx, (h.resolve_left hne).resolve_left hx⟩
  · intro ⟨hx, hy⟩
    rw [if_neg (fun hc => hx (hc.trans hy)), if_neg hx]

theorem out_xOne (h : a.1 = 1) : out a = a.2 := if_pos h

theorem out_yOne (h : a.1 ≠ 1) : out a = a.1 := if_neg h

theorem merged_resultShape : ∀ g : List (ℤ × ℤ), (merged g).resultShape = count g
  | [] => rfl
  | a :: g => by
    show (merged g).resultShape * out a = _
    rw [merged_resultShape g, mul_comm]
    rfl

theorem merged_xReshape : ∀ g : List (ℤ × ℤ), (merged g).xReshape = (g.map Prod.fst).prod
  | [] => rfl
  | a :: g => by
    show (merged g).xReshape * a.1 = _
    rw [merged_xReshape g, mul_comm]
    rfl

theorem merged_yReshape : ∀ g : List (ℤ × ℤ), (merged g).yReshape = (g.map Prod.snd).prod
  | [] => rfl
  | a :: g => by
    show (merged g).yReshape * a.2 = _
    rw [merged_yReshape g, mul_comm]
    rfl

theorem merged_xBcast : ∀ g : List (ℤ × ℤ), (merged g).xBcast =
    (g.map fun a => if kind a = .xOne then a.2 else 1).prod
  | [] => rfl
  | a :: g => by
    show (merged g).xBcast * (if kind a = .xOne then a.2 else 1) = _
    rw [merged_xBcast g, mul_comm]
    rfl

theorem merged_yBcast : ∀ g : List (ℤ × ℤ), (merged g).yBcast =
    (g.map fun a => if kind a = .yOne then a.1 else 1).prod
  | [] => rfl
  | a :: g => by
    show (merged g).yBcast * (if kind a = .yOne then a.1 else 1) = _
    rw [merged_yBcast g, mul_comm]
    rfl

/-! ## One input -/

/-- What the code has for one of the inputs, before and after merging, and the kind of the axes
along which that input repeats. -/
structure Side where
  size : ℤ × ℤ → ℤ
  repeats : ℤ × ℤ → ℤ
  dimSize : Dim → ℤ
  dimRepeats : Dim → ℤ
  index : Bcast → ℤ → Option ℤ
  own : State
  own_ne : own ≠ .same
  size_merged : ∀ g, dimSize (merged g) = (g.map size).prod
  repeats_merged : ∀ g, dimRepeats (merged g) = (g.map repeats).prod
  index_strided : ∀ b k, index (generateStrides b) k =
    if (generateStrides b).overflow then none
    else indexLoop 0 k (b.dims.map fun d => (dimSize d, dimRepeats d))
      ((stridesOf dimSize b.dims).zip (stridesOf resultShape b.dims))
  index_overflow : ∀ {b k}, b.overflow = true → index b k = none
  reads_own : ∀ {a}, Compat a → kind a = own → repeats a = out a ∧ size a = 1
  reads_other : ∀ {a}, Compat a → kind a ≠ own → repeats a = 1 ∧ size a = out a

def xSide : Side where
  size := Prod.fst
  repeats := fun a => if kind a = .xOne then a.2 else 1
  dimSize := xReshape
  dimRepeats := Dim.xBcast
  index := getBroadcastXIndex
  own := .xOne
  own_ne := by decide
  size_merged := merged_xReshape
  repeats_merged := merged_xBcast
  index_strided := fun _ _ => rfl
  index_overflow := fun h => if_pos h
  reads_own := by
    intro a _ hk
    have h := kind_eq_xOne.mp hk
    rw [if_pos hk, out_xOne h.1]
    exact ⟨rfl, h.1⟩
  reads_other := by
    intro a ha hk
    rw [if_neg hk]
    refine ⟨rfl, ?_⟩
    unfold out
    split
    next hx =>
      rw [ne_eq, kind_eq_xOne, not_and, not_not] at hk
      rw [hx, hk hx]
    next => rfl

def ySide : Side where
  size := Prod.snd
  repeats := fun a => if kind a = .yOne then a.1 else 1
  dimSize := yReshape
  dimRepeats := Dim.yBcast
  index := getBroadcastYIndex
  own := .yOne
  own_ne := by decide
  size_merged := merged_yReshape
  repeats_merged := merged_yBcast
  index_strided := fun _ _ => rfl
  index_overflow := fun h => if_pos h
  reads_own := by
    intro a ha hk
    have h := (kind_eq_yOne ha).mp hk
    rw [if_pos hk, out_yOne h.1]
    exact ⟨rfl, h.2⟩
  reads_other := by
    intro a ha hk
    rw [if_neg hk]
    refine ⟨rfl, ?_⟩
    unfold out
    split
    next => rfl
    next hx =>
      rw [ne_eq, kind_eq_yOne ha, not_and] at hk
      rcases ha with h | h | h
      · exact h.symm
      · exact absurd h hx
      · exact absurd h (hk hx)

theorem out_eq_one_iff : out a = 1 ↔ a = (1, 1) := by
  obtain ⟨x, y⟩ := a
  unfold out
  rw [Prod.mk.injEq]
  dsimp only
  split
  next hx => exact ⟨fun h => ⟨hx, h⟩, fun h => h.2⟩
  next hx => exact ⟨fun h => absurd h hx, fun h => absurd h.1 hx⟩

namespace Side

variable (S : Side)

/-- What the input is along an axis, and what it is read as. -/
def axis (a : ℤ × ℤ) : ℤ × ℤ := (S.size a, out a)

variable {S}

theorem axis_eq_one_iff {a : ℤ × ℤ} : S.axis a = (1, 1) ↔ a = (1, 1) := by
  constructor
  · intro h
    exact out_eq_one_iff.mp (congrArg Prod.snd h)
  · rintro rfl
    have h := S.reads_other (a := (1, 1)) (Or.inl rfl) S.own_ne.symm
    exact Prod.ext h.2 rfl

theorem map_axis_filter (l : List (ℤ × ℤ)) :
    (l.filter (· ≠ (1, 1))).map S.axis = (l.map S.axis).filter (· ≠ (1, 1)) := by
  rw [filter_map]
  congr 1
  apply filter_congr
  intro a _
  simp only [Function.comp_apply, ne_eq, axis_eq_one_iff]

theorem repeats_or (g : List (ℤ × ℤ)) (hg : ∀ a ∈ g, Compat a)
    (hkind : ∀ a ∈ g, ∀ b ∈ g, kind a = kind b) :
    (∀ a ∈ g, S.repeats a = 1 ∧ S.size a = out a) ∨
      (∀ a ∈ g, S.repeats a = out a ∧ S.size a = 1) := by
  by_cases h : ∃ a ∈ g, kind a = S.own
  · obtain ⟨a, ha, hown⟩ := h
    exact Or.inr fun b hb => S.reads_own (hg b hb) ((hkind b hb a ha).trans hown)
  · push Not at h
    exact Or.inl fun a ha => S.reads_other (hg a ha) (h a ha)

theorem uniform_group {g : List (ℤ × ℤ)} (hg : ∀ a ∈ g, Compat a)
    (hkind : ∀ a ∈ g, ∀ b ∈ g, kind a = kind b) : RowMajor.Uniform (g.map S.axis) := by
  rcases repeats_or (S := S) g hg hkind with h | h
  · left
    intro b hb
    obtain ⟨a, ha, rfl⟩ := mem_map.mp hb
    exact (h a ha).2
  · right
    intro b hb
    obtain ⟨a, ha, rfl⟩ := mem_map.mp hb
    exact (h a ha).2

end Side

theorem two_le_out (hx : 1 ≤ a.1) (hy : 1 ≤ a.2) (hne : a ≠ (1, 1)) : 2 ≤ out a := by
  have h1 := out_pos hx hy
  have h2 := mt out_eq_one_iff.mp hne
  omega

theorem Positive.count_pos (h : Positive l) : 0 < count l :=
  prod_pos fun a ha => out_pos (h a ha).1 (h a ha).2.1

theorem count_append (l l' : List (ℤ × ℤ)) : count (l ++ l') = count l * count l' := by
  unfold count
  rw [map_append, prod_append]

variable {g : List (ℤ × ℤ)} {gs : List (List (ℤ × ℤ))}

theorem two_le_count (hne : g ≠ []) (h : Positive g) (hone : (1, 1) ∉ g) : 2 ≤ count g := by
  obtain ⟨a, g, rfl⟩ := exists_cons_of_ne_nil hne
  have ha := h a mem_cons_self
  have h2 := two_le_out ha.1 ha.2.1 fun hc => hone (hc ▸ mem_cons_self)
  have hpos := h.tail.count_pos
  show 2 ≤ out a * count g
  nlinarith

/-- What `groups` leaves of axes that broadcast. -/
structure Grouped (g : List (ℤ × ℤ)) : Prop where
  ne_nil : g ≠ []
  positive : Positive g
  not_one : (1, 1) ∉ g
  kind : ∀ a ∈ g, ∀ b ∈ g, kind a = kind b

theorem mem_of_mem_groups {l g : List (ℤ × ℤ)} (hg : g ∈ groups l) :
    ∀ a ∈ g, a ∈ l ∧ a ≠ (1, 1) := by
  intro a ha
  have h : a ∈ (groups l).flatten := mem_flatten.mpr ⟨g, hg, ha⟩
  rw [flatten_groups, mem_filter] at h
  exact ⟨h.1, by simpa using h.2⟩

theorem grouped (h : Positive l) : ∀ g ∈ groups l, Grouped g := by
  intro g hg
  have hmem := mem_of_mem_groups hg
  refine ⟨?_, fun a ha => h a (hmem a ha).1, fun hc => (hmem _ hc).2 rfl, kind_groups g hg⟩
  rintro rfl
  exact nil_not_mem_groups l hg

/-- The groups that the vectors have an entry for: one at least. -/
def entries (l : List (ℤ × ℤ)) : List (List (ℤ × ℤ)) :=
  (groups l).headD [] :: (groups l).tail

theorem entries_cases (l : List (ℤ × ℤ)) :
    (groups l = [] ∧ entries l = [[]]) ∨ (groups l ≠ [] ∧ entries l = groups l) := by
  unfold entries
  cases h : groups l with
  | nil => exact Or.inl ⟨rfl, rfl⟩
  | cons g gs => exact Or.inr ⟨cons_ne_nil g gs, rfl⟩

theorem mem_entries {l g : List (ℤ × ℤ)} (h : Positive l) (hg : g ∈ entries l) :
    g = [] ∨ Grouped g := by
  rcases entries_cases l with ⟨-, hl⟩ | ⟨-, hl⟩
  · rw [hl] at hg
    exact Or.inl (mem_singleton.mp hg)
  · rw [hl] at hg
    exact Or.inr (grouped h g hg)

theorem flatten_entries (l : List (ℤ × ℤ)) : (entries l).flatten = l.filter (· ≠ (1, 1)) := by
  rw [← flatten_groups]
  rcases entries_cases l with ⟨hnil, hl⟩ | ⟨-, hl⟩
  · rw [hl, hnil]
    rfl
  · rw [hl]

/-- Merging keeps the number of elements. -/
theorem count_entries (l : List (ℤ × ℤ)) : count (entries l).flatten = count l := by
  have hfilter : count (l.filter (· ≠ (1, 1))) = count l := by
    induction l with
    | nil => rfl
    | cons a l ih =>
      by_cases ha : a = (1, 1)
      · rw [filter_cons_of_neg (by simp [ha]), ih, ha]
        exact (one_mul _).symm
      · rw [filter_cons_of_pos (by simp [ha])]
        exact congrArg (out a * ·) ih
  rw [flatten_entries, hfilter]

namespace Side

variable {S : Side}

/-- An input is read in full along a merged group, or has one element there and is repeated. -/
theorem readsOne_group {g : List (ℤ × ℤ)} (hg : ∀ a ∈ g, Compat a)
    (hkind : ∀ a ∈ g, ∀ b ∈ g, kind a = kind b) (hone : g = [] ∨ count g ≠ 1) :
    ReadsOne S.dimSize S.dimRepeats (merged g) := by
  unfold ReadsOne
  rw [S.repeats_merged, S.size_merged, merged_resultShape]
  rcases hone with rfl | hone
  · exact Or.inl ⟨rfl, rfl⟩
  rcases repeats_or (S := S) g hg hkind with hall | hall
  · left
    constructor
    · refine prod_eq_one fun v hv => ?_
      obtain ⟨a, ha, rfl⟩ := mem_map.mp hv
      exact (hall a ha).1
    · exact congrArg List.prod (map_congr_left fun a ha => (hall a ha).2)
  · right
    have hrep : (g.map S.repeats).prod = count g :=
      congrArg List.prod (map_congr_left fun a ha => (hall a ha).1)
    refine ⟨hrep.trans_ne hone, ?_, hone⟩
    refine prod_eq_one fun v hv => ?_
    obtain ⟨a, ha, rfl⟩ := mem_map.mp hv
    exact (hall a ha).2

theorem reads_grouped (h : ∀ g ∈ gs, Grouped g) :
    Reads S.dimSize S.dimRepeats (gs.map merged) := by
  intro d hd
  obtain ⟨g, hg, rfl⟩ := mem_map.mp hd
  obtain ⟨hne, hpos, hone, hkind⟩ := h g hg
  have h2 := two_le_count hne hpos hone
  refine ⟨?_, readsOne_group (fun a ha => (hpos a ha).2.2) hkind (Or.inr (by omega))⟩
  rw [merged_resultShape]
  exact hpos.count_pos

theorem outs_axis (l : List (ℤ × ℤ)) : outs (l.map S.axis) = count l := by
  unfold outs
  rw [map_map]
  rfl

theorem ins_axis (l : List (ℤ × ℤ)) : ins (l.map S.axis) = (l.map S.size).prod := by
  unfold ins
  rw [map_map]
  rfl

theorem pairs_merged (gs : List (List (ℤ × ℤ))) :
    pairs S.dimSize (gs.map merged) = (gs.map (List.map S.axis)).map RowMajor.merged := by
  unfold pairs
  rw [map_map, map_map]
  refine map_congr_left fun g _ => ?_
  show (S.dimSize (merged g), (merged g).resultShape) = (ins _, outs _)
  rw [S.size_merged, merged_resultShape, ins_axis, outs_axis]

/-- The merged axes select the element that the axes themselves do. -/
theorem select_entries {l : List (ℤ × ℤ)} {k : ℤ} (h : Positive l) (h0 : 0 ≤ k) (hk : k < count l) :
    select (pairs S.dimSize ((entries l).map merged)) k = select (l.map S.axis) k := by
  rcases entries_cases l with ⟨-, hentries⟩ | ⟨-, hentries⟩
  · have hzero : k = 0 := by
      rw [← count_entries, hentries] at hk
      have : k < 1 := hk
      omega
    rw [hzero, select_zero, select_zero]
  have hpos : ∀ a ∈ l.map S.axis, 0 < a.2 := by
    intro b hb
    obtain ⟨a, ha, rfl⟩ := mem_map.mp hb
    exact out_pos (h a ha).1 (h a ha).2.1
  have hflat : ((groups l).map (List.map S.axis)).flatten = (l.map S.axis).filter (· ≠ (1, 1)) := by
    rw [← map_flatten, flatten_groups, map_axis_filter]
  rw [hentries, pairs_merged, RowMajor.select_merged, hflat,
    RowMajor.select_filter hpos h0 (by rw [outs_axis]; exact hk)]
  · intro r hr
    obtain ⟨g, hg, rfl⟩ := mem_map.mp hr
    have hgroup := grouped h g hg
    exact uniform_group (fun a ha => (hgroup.positive a ha).2.2) hgroup.kind
  · rw [hflat]
    exact fun a ha => hpos a (mem_filter.mp ha).1
  · exact h0
  · rw [hflat, RowMajor.outs_filter, outs_axis]
    exact hk

end Side

/-! ## Overflow -/

/-- The output has fewer than `2 ^ 63` elements along the first merged axis, and along all axes
behind it. -/
def Fits (l : List (ℤ × ℤ)) : Prop :=
  count ((groups l).headD []) < 2 ^ 63 ∧ count (groups l).tail.flatten < 2 ^ 63

instance (l : List (ℤ × ℤ)) : Decidable (Fits l) := inferInstanceAs (Decidable (_ ∧ _))

/-- An input has elements along the axis and repeats, no more of either than the output has. -/
theorem Side.bounds (S : Side) (hx : 1 ≤ a.1) (hy : 1 ≤ a.2) (ha : Compat a) :
    0 < S.size a ∧ S.size a ≤ out a ∧ 0 < S.repeats a ∧ S.repeats a ≤ out a := by
  have hpos := out_pos hx hy
  by_cases hk : kind a = S.own
  · obtain ⟨hrep, hsize⟩ := S.reads_own ha hk
    omega
  · obtain ⟨hrep, hsize⟩ := S.reads_other ha hk
    omega

theorem isInt64_prod {f g : ℤ × ℤ → ℤ} (h : ∀ a ∈ l, 0 < f a ∧ f a ≤ g a)
    (hlt : (l.map g).prod < 2 ^ 63) : IsInt64 (l.map f).prod := by
  have hpos := prod_pos fun a ha => (h a ha).1
  have hle := prod_le (fun a ha => (h a ha).1) fun a ha => (h a ha).2
  constructor <;> omega

/-- Of the products of a group, that of the output is the largest. -/
theorem dimInt64_merged (h : Positive g) : DimInt64 (merged g) ↔ count g < 2 ^ 63 := by
  have hx := fun a ha => xSide.bounds (h a ha).1 (h a ha).2.1 (h a ha).2.2
  have hy := fun a ha => ySide.bounds (h a ha).1 (h a ha).2.1 (h a ha).2.2
  unfold DimInt64
  rw [merged_resultShape, merged_xReshape, merged_xBcast, merged_yReshape, merged_yBcast]
  refine ⟨fun hd => hd.1.2, fun hlt => ⟨?_, ?_, ?_, ?_, ?_⟩⟩
  · have := h.count_pos
    constructor <;> omega
  · exact isInt64_prod (fun a ha => ⟨(hx a ha).1, (hx a ha).2.1⟩) hlt
  · exact isInt64_prod (fun a ha => (hx a ha).2.2) hlt
  · exact isInt64_prod (fun a ha => ⟨(hy a ha).1, (hy a ha).2.1⟩) hlt
  · exact isInt64_prod (fun a ha => (hy a ha).2.2) hlt

theorem count_le_of_suffix {t g : List (ℤ × ℤ)} (h : Positive g) (ht : t <:+ g) :
    count t ≤ count g := by
  obtain ⟨r, rfl⟩ := ht
  have hr : Positive r := fun a ha => h a (mem_append_left t ha)
  have ht : Positive t := fun a ha => h a (mem_append_right r ha)
  have h1 := hr.count_pos
  have h2 := ht.count_pos
  rw [count_append]
  nlinarith

theorem groupFits_iff (h : Positive g) (hne : g ≠ [])
    (hout : ∀ a ∈ g, out a < 2 ^ 63) : GroupFits g ↔ count g < 2 ^ 63 := by
  constructor
  · intro hfits
    by_cases hlen : 2 ≤ g.length
    · exact (dimInt64_merged h).mp (hfits g (suffix_refl g) hlen)
    · obtain ⟨a, rfl⟩ : ∃ a, g = [a] := by
        rw [← length_eq_one_iff]
        have := length_pos_iff.mpr hne
        omega
      have hcount : count [a] = out a := mul_one _
      rw [hcount]
      exact hout a mem_cons_self
  · intro hlt t ht _
    have hpos : Positive t := fun a ha => h a (ht.subset ha)
    exact (dimInt64_merged hpos).mpr ((count_le_of_suffix h ht).trans_lt hlt)

theorem stridesOf_le : ∀ {d : Dim} {l : List Dim},
    Reads size repeats l →
    ∀ s ∈ stridesOf size (d :: l), 0 < s ∧ s ≤ (l.map resultShape).prod
  | d, l, h, s, hs => by
    rw [stridesOf_cons] at hs
    rcases mem_cons.mp hs with rfl | hs
    · exact ⟨prod_pos h.size_pos, prod_le h.size_pos h.size_le⟩
    · match l, h, hs with
      | [], _, hs => exact absurd hs not_mem_nil
      | e :: l, h, hs =>
        have ih := stridesOf_le h.tail s hs
        have he := (h e mem_cons_self).1
        refine ⟨ih.1, ih.2.trans ?_⟩
        rw [map_cons, prod_cons]
        nlinarith

theorem positive_flatten (h : ∀ g ∈ gs, Grouped g) :
    Positive gs.flatten := by
  intro a ha
  obtain ⟨g, hg, hag⟩ := mem_flatten.mp ha
  exact (h g hg).positive a hag

theorem two_pow_le_count : ∀ {gs : List (List (ℤ × ℤ))}, (∀ g ∈ gs, Grouped g) →
    2 ^ gs.length ≤ count gs.flatten
  | [], _ => le_refl 1
  | g :: gs, h => by
    have hg := h g mem_cons_self
    have hgs : ∀ g' ∈ gs, Grouped g' := fun g' hg' => h g' (mem_cons_of_mem g hg')
    have h2 := two_le_count hg.ne_nil hg.positive hg.not_one
    have ih := two_pow_le_count hgs
    have hpos := (positive_flatten hgs).count_pos
    rw [flatten_cons, count_append, length_cons, pow_succ]
    nlinarith

theorem count_le_flatten (h : ∀ g ∈ gs, Grouped g) (hg : g ∈ gs) :
    count g ≤ count gs.flatten := by
  have hpow : ∀ {l : List (List (ℤ × ℤ))}, (∀ g ∈ l, g ∈ gs) → 0 < count l.flatten := fun hl =>
    (positive_flatten fun g hg => h g (hl g hg)).count_pos
  obtain ⟨pre, post, rfl⟩ := append_of_mem hg
  have h1 := hpow (l := pre) fun g' hg' => mem_append_left _ hg'
  have h2 := hpow (l := post) fun g' hg' => mem_append_right _ (mem_cons_of_mem g hg')
  have h3 := (h g hg).positive.count_pos
  rw [flatten_append, flatten_cons, count_append, count_append]
  have h4 : count g ≤ count g * count post.flatten := by nlinarith
  nlinarith

/-- That every group and the groups behind the first fit comes down to two numbers of elements. -/
theorem fits_iff (h : Positive l) (hout : ∀ a ∈ l, out a < 2 ^ 63) :
    Fits l ↔ (∀ g ∈ groups l, GroupFits g) ∧ count (groups l).tail.flatten < 2 ^ 63 := by
  have hgroups := grouped h
  have hfits : ∀ g ∈ groups l, (GroupFits g ↔ count g < 2 ^ 63) := fun g hg =>
    groupFits_iff (hgroups g hg).positive (hgroups g hg).ne_nil
      fun a ha => hout a (mem_of_mem_groups hg a ha).1
  have htail : ∀ g ∈ (groups l).tail, Grouped g := fun g hg => hgroups g (mem_of_mem_tail hg)
  unfold Fits
  constructor
  · intro ⟨hhead, hrest⟩
    refine ⟨fun g hg => (hfits g hg).mpr ?_, hrest⟩
    match hgs : groups l, hg with
    | g' :: gs, hg =>
      rw [hgs] at hhead hrest htail
      rcases mem_cons.mp hg with rfl | hg
      · exact hhead
      · exact (count_le_flatten htail hg).trans_lt hrest
  · intro ⟨hall, hrest⟩
    refine ⟨?_, hrest⟩
    match hgs : groups l with
    | [] => exact (by norm_num : (1 : ℤ) < 2 ^ 63)
    | g :: gs =>
      rw [hgs] at hall hfits
      exact (hfits g mem_cons_self).mp (hall g mem_cons_self)

/-! ## Shapes that differ -/

variable {x y : List ℤ}

/-- For different shapes that broadcast, the result is the merged entries with their strides. -/
theorem bcast_entries (hne : x ≠ y) (h : ∀ a ∈ axes x y, Compat a) :
    bcast x y = generateStrides { (run (axes x y)).2 with
      dims := (entries (axes x y)).map merged } := by
  have hok := run_ok h
  rw [bcast_of_ne hne, if_neg (by rw [hok.valid]; decide)]
  congr 1
  rcases entries_cases (axes x y) with ⟨hnil, hl⟩ | ⟨hnil, hl⟩
  · rw [if_pos (by rw [hok.dims, hnil]; rfl), hl]
    rfl
  · rw [if_neg (by rw [hok.dims]; simpa using hnil), hl, ← hok.dims]

theorem prod_resultShape : ∀ gs : List (List (ℤ × ℤ)),
    ((gs.map merged).map resultShape).prod = count gs.flatten
  | [] => rfl
  | g :: gs => by
    rw [map_cons, map_cons, prod_cons, prod_resultShape gs, merged_resultShape,
      flatten_cons, count_append]

/-- The strides are numbers of `int64_t` just when the output has few enough elements behind the
first group. -/
theorem strides_fit_iff (h : ∀ g ∈ (groups l).tail, Grouped g) :
    (∀ s ∈ stridesOf xReshape ((entries l).map merged) ++
        stridesOf yReshape ((entries l).map merged) ++
        stridesOf resultShape ((entries l).map merged), IsInt64 s) ↔
      count (groups l).tail.flatten < 2 ^ 63 := by
  have hx : Reads xReshape Dim.xBcast ((groups l).tail.map merged) := xSide.reads_grouped h
  have hy : Reads yReshape Dim.yBcast ((groups l).tail.map merged) := ySide.reads_grouped h
  have hout : Reads resultShape (fun _ => 1) ((groups l).tail.map merged) :=
    fun d hd => ⟨(hx d hd).1, Or.inl ⟨rfl, rfl⟩⟩
  have hentries : (entries l).map merged =
      merged ((groups l).headD []) :: (groups l).tail.map merged := rfl
  rw [← prod_resultShape, hentries]
  constructor
  · intro hall
    refine (hall _ (mem_append_right _ ?_)).2
    rw [stridesOf_cons]
    exact mem_cons_self
  · intro hlt s hs
    have hle : 0 < s ∧ s ≤ (((groups l).tail.map merged).map resultShape).prod := by
      rcases mem_append.mp hs with hs | hs
      · rcases mem_append.mp hs with hs | hs
        · exact stridesOf_le hx s hs
        · exact stridesOf_le hy s hs
      · exact stridesOf_le hout s hs
    constructor <;> omega

/-- The flag for an overflow is clear just when the products of each group and the strides fit. -/
theorem overflow_iff (hne : x ≠ y) (h : ∀ a ∈ axes x y, Compat a)
    (htail : ∀ g ∈ (groups (axes x y)).tail, Grouped g) :
    (bcast x y).overflow = false ↔ (∀ g ∈ groups (axes x y), GroupFits g) ∧
      count (groups (axes x y)).tail.flatten < 2 ^ 63 := by
  rw [bcast_entries hne h, ← (run_ok h).overflow]
  have hpow : count (groups (axes x y)).tail.flatten < 2 ^ 63 →
      (groups (axes x y)).tail.length < 63 := fun hlt =>
    (pow_lt_pow_iff_right₀ (by norm_num : (1 : ℤ) < 2)).mp ((two_pow_le_count htail).trans_lt hlt)
  have hlength : ((entries (axes x y)).map merged).length =
      (groups (axes x y)).tail.length + 1 := by
    rw [length_map]
    rfl
  unfold generateStrides
  dsimp only
  rw [Bool.or_eq_false_iff, Bool.or_eq_false_iff, Bool.not_eq_false', decide_eq_true_eq,
    decide_eq_false_iff_not, strides_fit_iff htail, hlength]
  constructor
  · intro ⟨⟨hover, hlt⟩, _⟩
    exact ⟨hover, hlt⟩
  · intro ⟨hover, hlt⟩
    have hlen := hpow hlt
    exact ⟨⟨hover, hlt⟩, by omega⟩

theorem prod_axes_fst (x y : List ℤ) : ((axes x y).map Prod.fst).prod = x.prod := by
  have hx := length_lengthened (Nat.le_max_left x.length y.length)
  have hy := length_lengthened (Nat.le_max_right x.length y.length)
  unfold axes
  rw [map_fst_zip (hx.trans hy.symm).le]
  unfold lengthened
  rw [prod_append, prod_replicate, one_pow, one_mul]

theorem prod_axes_snd (x y : List ℤ) : ((axes x y).map Prod.snd).prod = y.prod := by
  have hx := length_lengthened (Nat.le_max_left x.length y.length)
  have hy := length_lengthened (Nat.le_max_right x.length y.length)
  unfold axes
  rw [map_snd_zip (hy.trans hx.symm).le]
  unfold lengthened
  rw [prod_append, prod_replicate, one_pow, one_mul]

/-- An index function selects its element along the merged axes, also where the output has no
elements along the first. -/
theorem Side.index_bcast (S : Side) {k : ℤ} (hne : x ≠ y)
    (h : ∀ a ∈ axes x y, Compat a) (hover : (bcast x y).overflow = false)
    (hhead : ReadsOne S.dimSize S.dimRepeats (merged ((groups (axes x y)).headD [])))
    (htail : ∀ g ∈ (groups (axes x y)).tail, Grouped g) (h0 : 0 ≤ k) (hint : k < 2 ^ 63) :
    S.index (bcast x y) k =
      some (select (pairs S.dimSize ((entries (axes x y)).map merged)) k) := by
  rw [bcast_entries hne h] at hover ⊢
  rw [S.index_strided, if_neg (by rw [hover]; decide)]
  exact (indexLoop_eq hhead (reads_grouped htail) le_rfl h0 (by omega)).trans
    (congrArg some (zero_add _))

/-- The merged axes have the elements of the input. -/
theorem Side.prod_size (S : Side) (l : List (ℤ × ℤ)) :
    (((entries l).map merged).map S.dimSize).prod = (l.map S.size).prod := by
  rw [← ins_pairs, pairs_merged, RowMajor.ins_merged, ← map_flatten, flatten_entries,
    map_axis_filter, RowMajor.ins_filter, ins_axis]

/-! ## Equal shapes -/

theorem countStep_count : ∀ (shape : List ℤ) (b : Bcast) (n : ℤ),
    (countStep b n shape).2 = n * shape.prod
  | [], _, n => (mul_one n).symm
  | d :: shape, b, n => by
    rw [countStep, countStep_count, prod_cons, mul_assoc]

theorem countStep_overflowed : ∀ {shape : List ℤ} {b : Bcast} {n : ℤ}, b.overflow = true →
    (countStep b n shape).1.overflow = true
  | [], _, _, h => h
  | d :: shape, b, n, h => by
    rw [countStep]
    refine countStep_overflowed ?_
    rw [h]
    rfl

theorem countStep_overflow : ∀ {shape : List ℤ} {b : Bcast} {n : ℤ}, (∀ d ∈ shape, 1 ≤ d) →
    1 ≤ n → n < 2 ^ 63 →
    ((countStep b n shape).1.overflow = false ↔ b.overflow = false ∧ n * shape.prod < 2 ^ 63)
  | [], b, n, _, _, hlt => by
    rw [prod_nil, mul_one]
    exact ⟨fun h => ⟨h, hlt⟩, fun h => h.1⟩
  | d :: shape, b, n, h, hn, hlt => by
    have hd := h d mem_cons_self
    have htail : ∀ e ∈ shape, 1 ≤ e := fun e he => h e (mem_cons_of_mem d he)
    have hpos : 0 < shape.prod := by
      have := prod_pos (f := id) htail
      rwa [map_id] at this
    have hnd : 1 ≤ n * d := by nlinarith
    have hle : n * d ≤ n * d * shape.prod := by nlinarith
    rw [prod_cons, ← mul_assoc, countStep]
    by_cases hfit : n * d < 2 ^ 63
    · have hint : IsInt64 (n * d) := ⟨by omega, hfit⟩
      rw [countStep_overflow htail hnd hfit]
      simp [hint]
    · have hint : ¬ IsInt64 (n * d) := fun hc => hfit hc.2
      rw [countStep_overflowed (by simp [hint])]
      exact ⟨fun hc => absurd hc (by decide), fun hc => absurd (hle.trans_lt hc.2) hfit⟩

theorem groups_same : ∀ {l : List (ℤ × ℤ)}, (∀ a ∈ l, kind a = .same) → (groups l).tail = []
  | [], _ => rfl
  | a :: l, h => by
    have ih := groups_same fun b hb => h b (mem_cons_of_mem a hb)
    rw [groups]
    split
    · exact ih
    rcases pushAxis_cases a (groups l) (nil_not_mem_groups l) with
      ⟨b, g, rest, hgs, -, hpush⟩ | ⟨hkind, hpush⟩
    · rw [hpush, tail_cons]
      rwa [hgs] at ih
    · rw [hpush, tail_cons]
      rcases hgs : groups l with _ | ⟨_ | ⟨b, g⟩, gs⟩
      · rfl
      · exact absurd (hgs ▸ mem_cons_self) (nil_not_mem_groups l)
      · have hb : b ∈ l := (mem_of_mem_groups (hgs ▸ mem_cons_self) b mem_cons_self).1
        rw [hgs] at hkind
        exact absurd ((h b (mem_cons_of_mem a hb)).trans (h a mem_cons_self).symm) hkind

theorem map_out_self (x : List ℤ) : (axes x x).map out = x := by
  rw [axes_self, zip_eq_zipWith, zipWith_self, map_map]
  refine (map_congr_left fun d _ => ?_).trans (map_id x)
  exact out_of_same (a := (d, d)) rfl

theorem same_of_mem_axes_self {x : List ℤ} : ∀ a ∈ axes x x, a.1 = a.2 := by
  intro a ha
  rw [axes_self, zip_eq_zipWith, zipWith_self] at ha
  obtain ⟨d, -, rfl⟩ := mem_map.mp ha
  rfl

theorem overflow_self_iff {x : List ℤ} (hx : ∀ d ∈ x, 1 ≤ d) :
    (bcast x x).overflow = false ↔ Fits (axes x x) := by
  have hcount : count (axes x x) = x.prod := congrArg List.prod (map_out_self x)
  have htail := groups_same fun a ha => kind_eq_same.mpr (same_of_mem_axes_self (x := x) a ha)
  have hhead : count ((groups (axes x x)).headD []) = x.prod := by
    have h := count_entries (axes x x)
    unfold entries at h
    rwa [htail, flatten_singleton, hcount] at h
  have hover : (bcast x x).overflow = false ↔ x.prod < 2 ^ 63 := by
    rw [bcast_self]
    show (countStep start 1 x).1.overflow = false ↔ _
    rw [countStep_overflow hx le_rfl (by norm_num), one_mul]
    exact ⟨fun h => h.2, fun h => ⟨rfl, h⟩⟩
  unfold Fits
  rw [hover, hhead, htail]
  exact ⟨fun h => ⟨h, by decide⟩, fun h => h.1⟩

/-! ## What broadcasting asks for -/

/-- The object is valid, its three merged shapes, which have an entry for each of `dims`, have
the element counts of the two inputs and of the output, and each index function gives the
element that its input is read at. -/
structure MapsRight (x y : List ℤ) : Prop where
  valid : (bcast x y).valid = true
  xCount : ((bcast x y).dims.map xReshape).prod = x.prod
  yCount : ((bcast x y).dims.map yReshape).prod = y.prod
  outCount : ((bcast x y).dims.map resultShape).prod = count (axes x y)
  xIndex : ∀ k, 0 ≤ k → k < count (axes x y) → IsInt64 k →
    getBroadcastXIndex (bcast x y) k = some (select ((axes x y).map xAxis) k)
  yIndex : ∀ k, 0 ≤ k → k < count (axes x y) → IsInt64 k →
    getBroadcastYIndex (bcast x y) k = some (select ((axes x y).map yAxis) k)

theorem axes_positive (hx : ∀ d ∈ x, 1 ≤ d) (hy : ∀ d ∈ y, 1 ≤ d)
    (h : ∀ a ∈ axes x y, Compat a) : Positive (axes x y) := by
  intro a ha
  have hsizes := forall_axes (p := fun d => 1 ≤ d) le_rfl hx hy a ha
  exact ⟨hsizes.1, hsizes.2, h a ha⟩

/-- An input of the output's shape is read element by element. -/
theorem mapsRight_self {x : List ℤ} (h : Positive (axes x x))
    (hover : (bcast x x).overflow = false) : MapsRight x x := by
  have hcount : count (axes x x) = x.prod := congrArg List.prod (map_out_self x)
  -- both sides have every dimension, so they read in step
  have hfull : ∀ {k : ℤ}, 0 ≤ k → k < count (axes x x) →
      select ((axes x x).map xAxis) k = k ∧ select ((axes x x).map yAxis) k = k := by
    intro k h0 hk
    have hside : ∀ S : Side, select ((axes x x).map S.axis) k = k := by
      intro S
      refine RowMajor.select_full ?_ ?_ h0 (by rw [Side.outs_axis]; exact hk)
      · intro b hb
        obtain ⟨a, ha, rfl⟩ := mem_map.mp hb
        refine (S.reads_other (h a ha).2.2 ?_).2
        rw [kind_eq_same.mpr (same_of_mem_axes_self a ha)]
        exact S.own_ne.symm
      · intro b hb
        obtain ⟨a, ha, rfl⟩ := mem_map.mp hb
        exact out_pos (h a ha).1 (h a ha).2.1
    exact ⟨hside xSide, hside ySide⟩
  have hprod : (countStep start 1 x).2 * 1 = x.prod := by
    rw [countStep_count, one_mul, mul_one]
  have hindex : ∀ k, IsInt64 k → getBroadcastXIndex (bcast x x) k = some k ∧
      getBroadcastYIndex (bcast x x) k = some k := by
    intro k hk
    unfold getBroadcastXIndex getBroadcastYIndex
    rw [hover, bcast_self]
    have hk' : int64 (0 + k) = some k := by
      rw [zero_add]
      exact if_pos hk
    exact ⟨hk', hk'⟩
  refine ⟨(bcast_valid_iff x x).mpr fun a ha => (h a ha).2.2, ?_, ?_, ?_, ?_, ?_⟩
  · rw [bcast_self]
    exact hprod
  · rw [bcast_self]
    exact hprod
  · rw [bcast_self, hcount]
    exact hprod
  · intro k h0 hk hint
    rw [(hindex k hint).1, (hfull h0 hk).1]
  · intro k h0 hk hint
    rw [(hindex k hint).2, (hfull h0 hk).2]

theorem headD_positive (h : Positive l) :
    (groups l).headD [] = [] ∨ Grouped ((groups l).headD []) :=
  mem_entries h mem_cons_self

theorem mapsRight_of_ne (hne : x ≠ y) (h : Positive (axes x y))
    (hover : (bcast x y).overflow = false) : MapsRight x y := by
  have hcompat : ∀ a ∈ axes x y, Compat a := fun a ha => (h a ha).2.2
  have hdims : (bcast x y).dims = (entries (axes x y)).map merged := by
    rw [bcast_entries hne hcompat]
    rfl
  have hindex : ∀ (S : Side) (k : ℤ), 0 ≤ k → k < count (axes x y) → IsInt64 k →
      S.index (bcast x y) k = some (select ((axes x y).map S.axis) k) := by
    intro S k h0 hk hint
    have hhead : ReadsOne S.dimSize S.dimRepeats (merged ((groups (axes x y)).headD [])) := by
      rcases headD_positive h with hnil | ⟨hnil, hpos, hone, hkind⟩
      · rw [hnil]
        exact Or.inl ⟨S.repeats_merged [], S.size_merged []⟩
      · have h2 := two_le_count hnil hpos hone
        exact Side.readsOne_group (fun a ha => (hpos a ha).2.2) hkind (Or.inr (by omega))
    rw [S.index_bcast hne hcompat hover hhead
      (fun g hg => grouped h g (mem_of_mem_tail hg)) h0 hint.2, Side.select_entries h h0 hk]
  refine ⟨(bcast_valid_iff x y).mpr hcompat, ?_, ?_, ?_, hindex xSide, hindex ySide⟩
  · rw [hdims]
    exact (xSide.prod_size _).trans (prod_axes_fst x y)
  · rw [hdims]
    exact (ySide.prod_size _).trans (prod_axes_snd x y)
  · rw [hdims, prod_resultShape, count_entries]

theorem MapsRight.not_overflow (h : Positive (axes x y)) (hmaps : MapsRight x y) :
    (bcast x y).overflow = false := by
  have h0 := hmaps.xIndex 0 le_rfl h.count_pos (by decide)
  unfold getBroadcastXIndex at h0
  by_contra hover
  rw [if_pos (by simpa using hover)] at h0
  exact absurd h0 (by simp)

theorem one_le_of_positive {x : List ℤ} (h : Positive (axes x x)) : ∀ d ∈ x, 1 ≤ d := by
  intro d hd
  refine (h (d, d) ?_).1
  rw [axes_self, zip_eq_zipWith, zipWith_self]
  exact mem_map.mpr ⟨d, hd, rfl⟩

/-- With no empty axis, nothing overflows just when the output has few enough elements. -/
theorem not_overflow_iff (h : Positive (axes x y)) (hout : ∀ a ∈ axes x y, out a < 2 ^ 63) :
    (bcast x y).overflow = false ↔ Fits (axes x y) := by
  by_cases hxy : x = y
  · subst hxy
    exact overflow_self_iff (one_le_of_positive h)
  · rw [fits_iff h hout, ← overflow_iff hxy (fun a ha => (h a ha).2.2) fun g hg =>
      grouped h g (mem_of_mem_tail hg)]

/-- Where nothing overflows, the merged shapes and the index functions are right. -/
theorem mapsRight_of_not_overflow (h : Positive (axes x y))
    (hover : (bcast x y).overflow = false) : MapsRight x y := by
  by_cases hxy : x = y
  · subst hxy
    exact mapsRight_self h hover
  · exact mapsRight_of_ne hxy h hover

/-- The two shapes have no empty axis and broadcast. -/
theorem mapsRight_iff {x y : List ℤ} (hx : ∀ d ∈ x, 1 ≤ d ∧ d < 2 ^ 63)
    (hy : ∀ d ∈ y, 1 ≤ d ∧ d < 2 ^ 63) (h : ∀ a ∈ axes x y, Compat a) :
    MapsRight x y ↔ Fits (axes x y) := by
  have hpos := axes_positive (fun d hd => (hx d hd).1) (fun d hd => (hy d hd).1) h
  have hout : ∀ a ∈ axes x y, out a < 2 ^ 63 := by
    intro a ha
    have hsizes := forall_axes (p := fun d => d < 2 ^ 63) (by norm_num) (fun d hd => (hx d hd).2)
      (fun d hd => (hy d hd).2) a ha
    unfold out
    split
    · exact hsizes.2
    · exact hsizes.1
  rw [← not_overflow_iff hpos hout]
  exact ⟨fun hmaps => hmaps.not_overflow hpos, mapsRight_of_not_overflow hpos⟩

theorem mapsRight_iff_row : MapsRight [2, 1] [3] ↔ Fits (axes [2, 1] [3]) :=
  mapsRight_iff (by decide) (by decide) (by decide)

/-- The first stride of the output wraps to zero. -/
theorem mapsRight_refutes : ¬ MapsRight [2, 2 ^ 32, 1] [2 ^ 32, 2 ^ 32] := by
  intro h
  have h0 := h.xIndex 0 (by decide) (by decide) (by decide)
  have hnone : getBroadcastXIndex (bcast [2, 2 ^ 32, 1] [2 ^ 32, 2 ^ 32]) 0 = none := by decide
  rw [hnone] at h0
  exact absurd h0 (by simp)

end OpBase.Shape.Bcast
