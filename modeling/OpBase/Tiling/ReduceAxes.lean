import OpBase.Tiling.CollapsePreserves
import OpBase.Tiling.ReduceShape

/-!
# The axes behind the elimination of unit axes

An axis of another size than one is called wide here. `EliminateOne` gives every reduced
axis its position among the wide axes, but it looks for an axis once. If an axis is in the
list several times, the first entry is changed or erased, and the others keep the number of
the axis in the given shape (`block`).

> `eliminateOne_eq`: the axes and the shape that are left.
>
> `mem_blocks_iff`: a wide axis is marked if it was in the list, or if an axis of its
> number was repeated.
-/

namespace OpBase.Tiling

open List OpBase.Lib OpBase.Lib.Checked

def isWide (shape : List ℤ) (k : ℕ) : Bool := shape.getD k 1 ≠ 1

/-- The axes that are not of size one. -/
def wide (shape : List ℤ) : List ℕ := (List.range shape.length).filter (isWide shape)

/-- The number of an axis in the new shape. -/
def position (shape : List ℤ) (k : ℕ) : ℕ := ((List.range k).filter (isWide shape)).length + 1

/-- What becomes of the entries of an axis. -/
def block (shape : List ℤ) (count : ℕ → ℕ) (k : ℕ) : List ℤ :=
  match count k with
  | 0 => []
  | r + 1 =>
    (if isWide shape k then [(position shape k : ℤ)] else []) ++ List.replicate r (k + 1 : ℤ)

def blocks (shape : List ℤ) (count : ℕ → ℕ) : List ℤ :=
  (List.range shape.length).flatMap (block shape count)

/-! ## Sorted axes -/

/-- What `ParamCheck` leaves. -/
structure SortedAxes (shape axes : List ℤ) : Prop where
  sorted : axes.Pairwise (· ≤ ·)
  range : ∀ a ∈ axes, 0 ≤ a ∧ a < shape.length

/-- Axes that pass the check are sorted and in the shape. -/
theorem paramCheck_eq_ok {dtypeSize : ℤ} {shape axes axes' : List ℤ}
    (h : paramCheck dtypeSize shape axes = .ok axes') : SortedAxes shape axes' := by
  unfold paramCheck at h
  split at h
  next => cases h
  next =>
    dsimp only at h
    split at h
    next hc =>
      cases h
      unfold axesCheck at hc
      rw [decide_eq_true_eq] at hc
      exact ⟨pairwise_insertionSort _ _, fun a ha => ⟨(hc.2 a ha).2, (hc.2 a ha).1⟩⟩
    next => cases h

theorem sorted_split {i : ℤ} : ∀ {rest : List ℤ}, rest.Pairwise (· ≤ ·) → (∀ a ∈ rest, i ≤ a) →
    ∃ rest', rest = List.replicate (rest.count i) i ++ rest' ∧ ∀ a ∈ rest', i < a
  | [], _, _ => ⟨[], rfl, fun _ h => nomatch h⟩
  | a :: rest, hs, hi => by
    rw [pairwise_cons] at hs
    by_cases ha : a = i
    · subst ha
      obtain ⟨rest', hrest, hlt⟩ := sorted_split hs.2 hs.1
      refine ⟨rest', ?_, hlt⟩
      rw [count_cons_self, replicate_succ, cons_append, ← hrest]
    · have hlt : i < a := lt_of_le_of_ne (hi a mem_cons_self) (Ne.symm ha)
      refine ⟨a :: rest, ?_, fun b hb => ?_⟩
      · rw [count_eq_zero_of_not_mem]
        · rfl
        · intro hmem
          rcases mem_cons.mp hmem with rfl | hmem
          · exact ha rfl
          · exact absurd (hs.1 i hmem) (by omega)
      · rcases mem_cons.mp hb with rfl | hb
        · exact hlt
        · exact hlt.trans_le (hs.1 b hb)

/-! ## What the elimination leaves -/

variable (shape : List ℤ) {k : ℕ}

theorem position_succ (k : ℕ) :
    position shape (k + 1) = position shape k + if isWide shape k then 1 else 0 := by
  unfold position
  rw [range_succ, filter_append, length_append]
  by_cases h : isWide shape k
  · rw [if_pos h, filter_cons_of_pos h]
    exact Nat.add_right_comm ..
  · rw [if_neg h, filter_cons_of_neg h]
    rfl

theorem isWide_of_drop {shape ds : List ℤ} {i : ℕ} {d : ℤ} (h : shape.drop i = d :: ds) :
    isWide shape i = decide (d ≠ 1) ∧ shape.drop (i + 1) = ds := by
  have hd : shape[i]? = some d := by
    rw [← head?_drop, h]
    rfl
  constructor
  · rw [isWide, getD_eq_getElem?_getD, hd]
    rfl
  · rw [← drop_drop, h]
    rfl

/-- The changes that the loop makes to the entries of axis `i`. -/
theorem block_step (c : ℕ → ℕ) {i : ℕ} {pre post : List ℤ}
    (hpre : ∀ a ∈ pre, a ≤ i) (hpost : ∀ a ∈ post, (i + 1 : ℤ) < a) :
    (if isWide shape i then
      (pre ++ (List.replicate (c i) (i + 1 : ℤ) ++ post)).replace (i + 1 : ℤ) (position shape i)
    else (pre ++ (List.replicate (c i) (i + 1 : ℤ) ++ post)).erase (i + 1 : ℤ)) =
      pre ++ (block shape c i ++ post) := by
  have hnpre : (i + 1 : ℤ) ∉ pre := fun h => by
    have := hpre _ h
    omega
  have hnpost : (i + 1 : ℤ) ∉ post := fun h => absurd (hpost _ h) (lt_irrefl _)
  rw [replace_append_right hnpre, erase_append_right _ hnpre]
  unfold block
  cases c i with
  | zero =>
    rw [replicate_zero, nil_append, replace_of_not_mem hnpost, erase_of_not_mem hnpost, ite_self]
  | succ r =>
    dsimp only
    rw [replicate_succ, cons_append, replace_cons_self, erase_cons_head]
    split <;> rfl

theorem position_le (k : ℕ) : position shape k ≤ k + 1 := by
  have := length_filter_le (isWide shape) (List.range k)
  rw [length_range] at this
  exact Nat.succ_le_succ this

theorem block_le {shape : List ℤ} {c : ℕ → ℕ} {a : ℤ} (ha : a ∈ block shape c k) :
    a ≤ k + 1 := by
  unfold block at ha
  split at ha
  next => exact nomatch ha
  next =>
    rcases mem_append.mp ha with ha | ha
    · split at ha
      next =>
        have := position_le shape k
        rw [mem_singleton.mp ha]
        omega
      next => exact nomatch ha
    · exact (eq_of_mem_replicate ha).le

/-- From axis `i` on: what stands in front of the entries of the axes to come has been dealt
with. -/
theorem eliminateLoop_eq {shape : List ℤ} {c : ℕ → ℕ} : ∀ {ds : List ℤ} {i : ℕ}
    {done rest out : List ℤ}, shape.drop i = ds → rest.Pairwise (· ≤ ·) →
    (∀ a ∈ rest, (i : ℤ) ≤ a ∧ a < shape.length) → (∀ k, i ≤ k → rest.count (k : ℤ) = c k) →
    (∀ a ∈ done, a ≤ i) → out.length = position shape i →
    out.length ≤ MAX_DIM →
    eliminateLoop ds i (i + 1 - position shape i) (done ++ rest.map (· + 1)) out =
      if out.length + (ds.filter (· ≠ 1)).length ≤ MAX_DIM then
        .ok (done ++ (List.range' i ds.length).flatMap (block shape c),
          out ++ (ds.filter (· ≠ 1)).map uint64)
      else .error .undefined
  | [], i, done, rest, out, hds, _, hrange, _, _, _, hroom => by
    have hlen := drop_eq_nil_iff.mp hds
    have hrest : rest = [] := by
      refine eq_nil_iff_forall_not_mem.mpr fun a ha => ?_
      have := hrange a ha
      omega
    rw [filter_nil, length_nil, if_pos (by omega), hrest, map_nil, map_nil,
      append_nil, append_nil]
    unfold eliminateLoop
    rw [range'_zero, flatMap_nil, append_nil]
  | d :: ds, i, done, rest, out, hds, hsorted, hrange, hcount, hdone, hout, hroom => by
    obtain ⟨hw, hds'⟩ := isWide_of_drop hds
    obtain ⟨rest', hrest, hlt⟩ := sorted_split hsorted fun a ha => (hrange a ha).1
    rw [hcount i le_rfl] at hrest
    have hmap : rest.map (· + 1) = List.replicate (c i) (i + 1 : ℤ) ++ rest'.map (· + 1) := by
      conv_lhs => rw [hrest]
      rw [map_append, map_replicate]
    have hpost : ∀ a ∈ rest'.map (· + 1), (i + 1 : ℤ) < a := by
      intro a ha
      obtain ⟨b, hb, rfl⟩ := mem_map.mp ha
      have := hlt b hb
      omega
    have hstep := block_step shape c hdone hpost
    rw [← hmap] at hstep
    -- the rest of the loop, with the entries of axis `i` dealt with
    have hsorted' : rest'.Pairwise (· ≤ ·) :=
      hsorted.sublist (hrest ▸ sublist_append_right _ _)
    have hrange' : ∀ a ∈ rest', ((i + 1 : ℕ) : ℤ) ≤ a ∧ a < shape.length := fun a ha =>
      ⟨by have := hlt a ha; omega,
        (hrange a (hrest ▸ mem_append_right _ ha)).2⟩
    have hcount' : ∀ k, i + 1 ≤ k → rest'.count (k : ℤ) = c k := by
      intro k hk
      rw [← hcount k (by omega), hrest, List.count_append, count_replicate, if_neg, zero_add]
      rw [beq_iff_eq]
      omega
    have hdone' : ∀ a ∈ done ++ block shape c i, a ≤ ((i + 1 : ℕ) : ℤ) := by
      intro a ha
      rcases mem_append.mp ha with ha | ha
      · have := hdone a ha
        omega
      · exact_mod_cast block_le ha
    unfold eliminateLoop
    rw [length_cons, range'_succ, flatMap_cons]
    by_cases hd : d ≠ 1
    · rw [if_pos hd, filter_cons_of_pos (by simp [hd]), length_cons]
      have hwide : isWide shape i := by rw [hw]; exact decide_eq_true hd
      have hpos : position shape (i + 1) = position shape i + 1 := by
        rw [position_succ, if_pos hwide]
      rw [if_pos hwide] at hstep
      by_cases hfull : out.length < MAX_DIM
      · rw [if_pos hfull, sub_sub_cancel, hstep, ← append_assoc]
        have hout' : (out ++ [uint64 d]).length = position shape (i + 1) := by
          rw [length_append, hout, hpos]
          rfl
        have hroom' : (out ++ [uint64 d]).length ≤ MAX_DIM := by
          rw [length_append, length_singleton]
          omega
        have ih := eliminateLoop_eq hds' hsorted' hrange' hcount' hdone' hout' hroom'
        have herase : ((i + 1 : ℕ) : ℤ) + 1 - position shape (i + 1) =
            i + 1 - position shape i := by
          rw [hpos]
          omega
        rw [herase] at ih
        rw [ih, length_append, length_singleton, map_cons, Nat.add_right_comm,
          Nat.add_assoc, append_assoc, append_assoc]
        rfl
      · rw [if_neg hfull, if_neg (by omega)]
    · rw [if_neg hd, filter_cons_of_neg (by simp [not_not.mp hd])]
      have hunit : ¬ isWide shape i := by
        rw [hw, decide_eq_true_eq]
        exact hd
      have hpos : position shape (i + 1) = position shape i := by
        rw [position_succ, if_neg hunit, Nat.add_zero]
      rw [if_neg hunit] at hstep
      rw [hstep, ← append_assoc]
      have ih := eliminateLoop_eq hds' hsorted' hrange' hcount' hdone' (hout.trans hpos.symm) hroom
      have herase : ((i + 1 : ℕ) : ℤ) + 1 - position shape (i + 1) =
          i + 1 - position shape i + 1 := by
        rw [hpos]
        omega
      rw [herase] at ih
      rw [ih, append_assoc]

/-- The sizes of the wide axes. -/
def wideSizes (shape : List ℤ) : List ℤ := (wide shape).map (shape.getD · 1)

theorem filter_eq_wideSizes : shape.filter (· ≠ 1) = wideSizes shape := by
  have hshape : (List.range shape.length).map (shape.getD · 1) = shape := by
    refine ext_getElem (by rw [length_map, length_range]) fun i h₁ h₂ => ?_
    rw [getElem_map, getElem_range, getD_eq_getElem _ _ h₂]
  unfold wideSizes wide
  conv_lhs => rw [← hshape]
  rw [filter_map]
  rfl

/-- Without the axes of size one: the positions left, and the sizes behind a leading one. -/
theorem eliminateOne_eq {shape axes : List ℤ} (h : SortedAxes shape axes) :
    eliminateOne shape axes =
      if 1 + (wide shape).length ≤ MAX_DIM then
        .ok (blocks shape fun k => axes.count (k : ℤ), 1 :: (wideSizes shape).map uint64)
      else .error .undefined := by
  have hloop := @eliminateLoop_eq shape (fun k => axes.count (k : ℤ)) shape 0 [] axes [1] rfl
    h.sorted (fun a ha => h.range a ha) (fun k _ => rfl) (fun _ ha => nomatch ha) rfl (by decide)
  rw [filter_eq_wideSizes, length_singleton] at hloop
  have hlen : (wideSizes shape).length = (wide shape).length := length_map ..
  rw [hlen] at hloop
  rw [blocks, range_eq_range']
  exact hloop

/-! ## Marks -/

section

variable {shape : List ℤ} {c : ℕ → ℕ}

theorem wide_nodup (shape : List ℤ) : (wide shape).Nodup := nodup_range.filter _

theorem wide_lt {t : ℕ} (h : (wide shape)[t]? = some k) : k < shape.length ∧ isWide shape k := by
  have := mem_filter.mp (mem_of_getElem? h)
  exact ⟨mem_range.mp this.1, this.2⟩

theorem range_split {n : ℕ} (hk : k < n) :
    List.range n = List.range k ++ k :: List.range' (k + 1) (n - k - 1) := by
  have h : List.range' 0 n = List.range' 0 (k + (n - k - 1 + 1)) := by
    congr 1
    omega
  rw [range_eq_range', range_eq_range', h, ← range'_append_1, range'_succ, Nat.zero_add]

theorem wide_position (hk : k < shape.length) (hw : isWide shape k) :
    (wide shape)[position shape k - 1]? = some k := by
  unfold wide position
  rw [range_split hk, filter_append, filter_cons_of_pos hw, Nat.add_sub_cancel,
    getElem?_append_right le_rfl, Nat.sub_self]
  rfl

theorem position_eq_iff {t : ℕ} (hk : k < shape.length) (hw : isWide shape k) :
    position shape k = t + 1 ↔ (wide shape)[t]? = some k := by
  have hpos := wide_position hk hw
  constructor
  · intro h
    rwa [h, Nat.add_sub_cancel] at hpos
  · intro h
    have hlt := (List.getElem?_eq_some_iff.mp h).1
    have := (getElem?_inj hlt (wide_nodup shape)).mp (h.trans hpos.symm)
    have : 0 < position shape k := Nat.succ_pos _
    omega

theorem le_wide {t : ℕ} (h : (wide shape)[t]? = some k) : t ≤ k := by
  obtain ⟨hk, hw⟩ := wide_lt h
  have := (position_eq_iff hk hw).mpr h
  have := position_le shape k
  omega

theorem wide_lt_wide {s t l : ℕ} (hst : s < t) (hs : (wide shape)[s]? = some k)
    (ht : (wide shape)[t]? = some l) : k < l := by
  obtain ⟨hs', rfl⟩ := List.getElem?_eq_some_iff.mp hs
  obtain ⟨ht', rfl⟩ := List.getElem?_eq_some_iff.mp ht
  exact pairwise_iff_getElem.mp (pairwise_lt_range.filter _) s t hs' ht' hst

/-- An axis stands for its position among the wide ones, or, named twice, for itself. -/
theorem mem_block {a : ℤ} : a ∈ block shape c k ↔
    (0 < c k ∧ isWide shape k ∧ a = position shape k) ∨ (2 ≤ c k ∧ a = k + 1) := by
  unfold block
  cases hc : c k with
  | zero => simp
  | succ r =>
    dsimp only
    rw [mem_append, mem_replicate]
    have hr : r ≠ 0 ↔ 2 ≤ r + 1 := by omega
    rw [hr]
    refine or_congr ?_ Iff.rfl
    by_cases hw : isWide shape k
    · rw [if_pos hw, mem_singleton]
      exact ⟨fun h => ⟨Nat.succ_pos r, hw, h⟩, fun h => h.2.2⟩
    · rw [if_neg hw]
      exact ⟨fun h => absurd h not_mem_nil, fun h => absurd h.2.1 hw⟩

/-- Which wide axes `MergeAxis` takes for reduced ones. -/
theorem mem_blocks_iff {t : ℕ} (ht : (wide shape)[t]? = some k) :
    (t + 1 : ℤ) ∈ blocks shape c ↔ 0 < c k ∨ 2 ≤ c t := by
  obtain ⟨hk, hw⟩ := wide_lt ht
  unfold blocks
  rw [mem_flatMap]
  constructor
  · intro ⟨l, hl, hmem⟩
    rcases mem_block.mp hmem with ⟨hc, hwl, heq⟩ | ⟨hc, heq⟩
    · have hpos : position shape l = t + 1 := by omega
      have := (position_eq_iff (mem_range.mp hl) hwl).mp hpos
      obtain rfl : k = l := Option.some.inj (ht.symm.trans this)
      exact Or.inl hc
    · obtain rfl : l = t := by omega
      exact Or.inr hc
  · rintro (hc | hc)
    · have hpos := (position_eq_iff hk hw).mpr ht
      exact ⟨k, mem_range.mpr hk, mem_block.mpr (Or.inl ⟨hc, hw, by rw [hpos]; rfl⟩)⟩
    · have := le_wide ht
      exact ⟨t, mem_range.mpr (by omega), mem_block.mpr (Or.inr ⟨hc, rfl⟩)⟩

theorem takeWhile_append_cons {u v : List ℤ} {i : ℤ} (hu : i ∉ u) :
    (u ++ i :: v).takeWhile (· ≠ i) = u := by
  rw [takeWhile_append_of_pos, takeWhile_cons_of_neg, append_nil]
  · simp
  · intro a ha
    exact decide_eq_true fun h => hu (h ▸ ha)

/-- Entries for `t` stand in front of those for `s` where `t` was repeated and `s` was not. -/
theorem mem_takeWhile_iff {s t : ℕ} (hst : s < t) (hs : (wide shape)[s]? = some k)
    (hmem : (s + 1 : ℤ) ∈ blocks shape c) :
    (t + 1 : ℤ) ∈ (blocks shape c).takeWhile (· ≠ (s + 1 : ℤ)) ↔ 2 ≤ c t ∧ t < k ∧ c s < 2 := by
  obtain ⟨hk, hw⟩ := wide_lt hs
  have hpos := (position_eq_iff hk hw).mpr hs
  have hmarked : ∀ {m : ℕ} {a : ℤ}, a ∈ (List.range m).flatMap (block shape c) →
      ∃ l < m, a ∈ block shape c l := fun h => by
    obtain ⟨l, hl, ha⟩ := mem_flatMap.mp h
    exact ⟨l, mem_range.mp hl, ha⟩
  by_cases hc : 2 ≤ c s
  · -- the first entry for `s` is among the blocks up to `s`, which have no entries for `t`
    have hsn : s + 1 ≤ shape.length := (le_wide hs).trans_lt hk
    refine iff_of_false (fun h => ?_) (by omega)
    have hin : (s + 1 : ℤ) ∈ (List.range (s + 1)).flatMap (block shape c) :=
      mem_flatMap.mpr ⟨s, self_mem_range_succ, mem_block.mpr (Or.inr ⟨hc, rfl⟩)⟩
    obtain ⟨u, v, huv, hu⟩ := eq_append_cons_of_mem hin
    have hrange : List.range shape.length =
        List.range (s + 1) ++ (List.range (shape.length - (s + 1))).map (s + 1 + ·) := by
      rw [← range_add, Nat.add_sub_cancel' hsn]
    rw [blocks, hrange, flatMap_append, huv, append_assoc, cons_append,
      takeWhile_append_cons hu] at h
    obtain ⟨l, hl, ha⟩ := hmarked (huv ▸ mem_append_left _ h)
    have := block_le ha
    omega
  · -- the first entry for `s` is that of its axis
    have hck : 0 < c k := ((mem_blocks_iff hs).mp hmem).resolve_right hc
    have hnot : (s + 1 : ℤ) ∉ (List.range k).flatMap (block shape c) := fun h => by
      obtain ⟨l, hl, ha⟩ := hmarked h
      rcases mem_block.mp ha with ⟨-, hwl, heq⟩ | ⟨hcl, heq⟩
      · have hp : position shape l = s + 1 := by omega
        have := (position_eq_iff (hl.trans hk) hwl).mp hp
        exact absurd (Option.some.inj (hs.symm.trans this)) hl.ne'
      · obtain rfl : l = s := by omega
        exact hc hcl
    have hfirst : block shape c k = (s + 1 : ℤ) :: List.replicate (c k - 1) (k + 1 : ℤ) := by
      obtain ⟨r, hr⟩ : ∃ r, c k = r + 1 := ⟨c k - 1, by omega⟩
      unfold block
      rw [hr]
      dsimp only
      rw [if_pos hw, hpos]
      rfl
    rw [blocks, range_split hk, flatMap_append, flatMap_cons, hfirst, cons_append,
      takeWhile_append_cons hnot]
    constructor
    · intro h
      obtain ⟨l, hl, ha⟩ := hmarked h
      rcases mem_block.mp ha with ⟨-, hwl, heq⟩ | ⟨hcl, heq⟩
      · have hp : position shape l = t + 1 := by omega
        have := (position_eq_iff (hl.trans hk) hwl).mp hp
        exact absurd (wide_lt_wide hst hs this) hl.asymm
      · obtain rfl : l = t := by omega
        exact ⟨hcl, hl, by omega⟩
    · intro ⟨hct, htk, _⟩
      exact mem_flatMap.mpr ⟨t, mem_range.mpr htk, mem_block.mpr (Or.inr ⟨hct, rfl⟩)⟩

end

end OpBase.Tiling
