import OpBase.Tiling.BroadcastTiling
import OpBase.Tiling.CollapsePreserves

/-!
# The broadcast tiling covers the output

Both cuts, of the split axis into pieces and of the loop into blocks, round a quotient up:
all pieces have one length but the last, which has what is left.

> `brodcastTiling_covers_iff`: the tiling of a collapsed output covers it, if and only if
> the output has elements and the quotient that becomes `ubFormer` leaves something in 32
> bits that can be added to the split axis.
-/

namespace OpBase.Tiling

open List OpBase.Lib OpBase.Lib.Checked

/-! ## Cutting a length into pieces -/

/-- So many pieces of length `f` are needed for a length `d`. -/
def pieces (d f : ℤ) : ℤ := (d + f - 1) / f

theorem pieces_le_iff {d f c : ℤ} (hf : 0 < f) : pieces d f ≤ c ↔ d ≤ c * f := by
  rw [pieces, Int.ediv_le_iff_le_mul hf]
  omega

/-- The last piece is not empty, and not longer than the others. -/
theorem pieces_tail (d : ℤ) {f : ℤ} (hf : 0 < f) :
    0 < d - (pieces d f - 1) * f ∧ d - (pieces d f - 1) * f ≤ f := by
  have hle : d ≤ pieces d f * f := (pieces_le_iff hf).mp le_rfl
  have hlt : ¬ d ≤ (pieces d f - 1) * f := fun h => by
    have := (pieces_le_iff hf).mpr h
    omega
  rw [sub_mul, one_mul] at hlt ⊢
  omega

theorem pieces_pos {d f : ℤ} (hd : 0 < d) (hf : 0 < f) : 0 < pieces d f := by
  by_contra h
  have := (pieces_le_iff hf).mp (not_lt.mp h)
  omega

theorem pieces_le {d f : ℤ} (hd : 0 < d) (hf : 0 < f) : pieces d f ≤ d :=
  (pieces_le_iff hf).mpr (le_mul_of_one_le_right hd.le hf)

theorem pieces_pieces_le {d c : ℤ} (hd : 0 < d) (hc : 0 < c) : pieces d (pieces d c) ≤ c := by
  rw [pieces_le_iff (pieces_pos hd hc), mul_comm]
  exact (pieces_le_iff hc).mp le_rfl

/-! ## The split axis -/

/-- Axes behind `d` fit into the buffer, and `d` does not, or is the first. -/
structure SplitAt (maxElemNum : ℤ) (dims pre : List ℤ) (d : ℤ) (post : List ℤ) : Prop where
  dims_eq : dims = pre ++ d :: post
  fits : post.prod ≤ maxElemNum
  exceeds : pre = [] ∨ maxElemNum < d * post.prod

/-- The sizes of a collapsed shape: products over its axes are `int64_t` numbers. -/
structure Sizes (dims : List ℤ) : Prop where
  nonneg : ∀ d ∈ dims, 0 ≤ d
  lt : ∀ pre post, dims = pre ++ post → post.prod < 2 ^ 63

theorem prod_nonneg : ∀ {l : List ℤ}, (∀ d ∈ l, 0 ≤ d) → 0 ≤ l.prod
  | [], _ => zero_le_one
  | d :: l, h => by
    rw [prod_cons]
    exact mul_nonneg (h d mem_cons_self) (prod_nonneg fun x hx => h x (mem_cons_of_mem d hx))

theorem Sizes.prod_nonneg {dims pre post : List ℤ} (h : Sizes dims) (he : dims = pre ++ post) :
    0 ≤ post.prod :=
  Tiling.prod_nonneg fun x hx => h.nonneg x (he ▸ mem_append_right _ hx)

variable {z : ℤ}

theorem uint64_eq (h0 : 0 ≤ z) (h : z < 2 ^ 64) : uint64 z = z := Int.emod_eq_of_lt h0 h

theorem uint32_le (h : 0 ≤ z) : uint32 z ≤ z := by
  unfold uint32
  omega

theorem asInt64_eq (h0 : 0 ≤ z) (h : z < 2 ^ 63) : asInt64 z = z := by
  unfold asInt64
  omega

theorem nth_append (pre : List ℤ) (d : ℤ) (post : List ℤ) :
    nth (pre ++ d :: post) pre.length = .ok d := by
  unfold nth
  rw [getElem?_append_right le_rfl, Nat.sub_self]
  rfl

theorem divide_eq {a b : ℤ} (ha : 0 ≤ a) (hb : b ≠ 0) : divide a b = .ok (a / b) := by
  rw [divide, if_neg hb, Int.tdiv_eq_ediv_of_nonneg ha]

theorem ubSplit_append (m : ℤ) (pre : List ℤ) (d : ℤ) (post : List ℤ) (cur : ℤ) :
    ubSplit m (pre ++ d :: post) (pre.length + 1) cur =
      if m < uint64 (cur * d) then
        divide (uint64 (cur * d)) (uint64 d) >>= fun c => .ok (c, some pre.length)
      else ubSplit m (pre ++ d :: post) pre.length (uint64 (cur * d)) := by
  rw [ubSplit, nth_append]
  rfl

/-- By induction from the last axis: the axis that no longer fits into a tile as a whole, or
none. -/
theorem ubSplit_spec {m : ℤ} {dims : List ℤ} (hm : 0 ≤ m) (hs : Sizes dims) :
    ∀ {pre post : List ℤ}, dims = pre ++ post → post.prod ≤ m →
      (ubSplit m dims pre.length post.prod = .ok (dims.prod, none) ∧ dims.prod ≤ m) ∨
        ∃ pre' d post', dims = pre' ++ d :: post' ∧ post'.prod ≤ m ∧ m < d * post'.prod ∧
          ubSplit m dims pre.length post.prod = .ok (post'.prod, some pre'.length) := by
  intro pre
  induction pre using List.reverseRecOn with
  | nil =>
    rintro post rfl hle
    exact Or.inl ⟨rfl, hle⟩
  | append_singleton pre d ih =>
    intro post hdims hle
    rw [append_assoc, singleton_append] at hdims
    have hd : 0 ≤ d := hs.nonneg d (hdims ▸ mem_append_right _ mem_cons_self)
    have hpost : 0 ≤ post.prod := by
      refine hs.prod_nonneg (?_ : dims = (pre ++ [d]) ++ post)
      rw [hdims, append_assoc, singleton_append]
    have hlt := hs.lt pre (d :: post) hdims
    rw [prod_cons] at hlt
    have hprod : uint64 (post.prod * d) = d * post.prod := by
      rw [mul_comm, uint64_eq (mul_nonneg hd hpost) (by omega)]
    have hstep := ubSplit_append m pre d post post.prod
    rw [← hdims, hprod] at hstep
    rw [length_append, length_singleton, hstep]
    by_cases hex : m < d * post.prod
    · -- no factor of a product above `m` is zero
      have hdpos : 0 < d := pos_of_mul_pos_left (hm.trans_lt hex) hpost
      have hppos : 0 < post.prod := pos_of_mul_pos_right (hm.trans_lt hex) hd
      have hdlt : d < 2 ^ 64 := by
        have : d ≤ d * post.prod := le_mul_of_one_le_right hd hppos
        omega
      refine Or.inr ⟨pre, d, post, hdims, hle, hex, ?_⟩
      rw [if_pos hex, uint64_eq hd hdlt, divide_eq (mul_nonneg hd hpost) hdpos.ne',
        Int.mul_ediv_cancel_left _ hdpos.ne']
      rfl
    · rw [if_neg hex]
      exact ih hdims (not_lt.mp hex)

theorem prod_pos {l : List ℤ} (h : ∀ d ∈ l, 0 ≤ d) (h0 : 0 ∉ l) : 0 < l.prod :=
  lt_of_le_of_ne (prod_nonneg h) (prod_ne_zero h0).symm

/-- The axis that the tiles cut, and the product behind it. -/
theorem findUbSplit_spec {m : ℤ} {dims : List ℤ} (hm : 1 ≤ m) (hs : Sizes dims) (h0 : 0 ∉ dims)
    (hne : dims ≠ []) :
    ∃ pre d post, SplitAt m dims pre d post ∧ findUbSplit m dims = .ok (post.prod, pre.length) := by
  have hstart := ubSplit_spec (by omega) hs (append_nil dims).symm hm
  rw [prod_nil] at hstart
  rcases hstart with ⟨hrun, hle⟩ | ⟨pre, d, post, hdims, hle, hex, hrun⟩
  -- Everything fits: the loop never stops, and the code takes the first axis for the cut.
  · cases dims with
    | nil => exact absurd rfl hne
    | cons d post =>
      have hd : 0 < d := lt_of_le_of_ne (hs.nonneg d mem_cons_self) fun h => h0 (h ▸ mem_cons_self)
      have hpost : 0 < post.prod :=
        prod_pos (fun x hx => hs.nonneg x (mem_cons_of_mem d hx))
          fun h => h0 (mem_cons_of_mem d h)
      have hlt := hs.lt [] (d :: post) rfl
      rw [prod_cons] at hlt hle
      have hdle : d ≤ d * post.prod := le_mul_of_one_le_right hd.le hpost
      have hple : post.prod ≤ d * post.prod := le_mul_of_one_le_left hpost.le hd
      refine ⟨[], d, post, ⟨rfl, hple.trans hle, Or.inl rfl⟩, ?_⟩
      unfold findUbSplit
      rw [hrun]
      show divide (d * post.prod) (uint64 d) >>= (fun c => .ok (c, 0)) = _
      rw [uint64_eq hd.le (by omega), divide_eq (mul_pos hd hpost).le hd.ne',
        Int.mul_ediv_cancel_left _ hd.ne']
      rfl
  -- The loop stopped at an axis that does not fit any more.
  · refine ⟨pre, d, post, ⟨hdims, hle, Or.inr hex⟩, ?_⟩
    unfold findUbSplit
    rw [hrun]
    rfl

/-- Of two axes that could be cut neither is in front of the other. -/
theorem SplitAt.length_le {m : ℤ} {dims pre pre' post post' : List ℤ} {d d' : ℤ}
    (hm : 0 ≤ m) (hpos : ∀ x ∈ dims, 0 < x) (h : SplitAt m dims pre d post)
    (h' : SplitAt m dims pre' d' post') : pre.length ≤ pre'.length := by
  by_contra hlen
  have heq := h.dims_eq.symm.trans h'.dims_eq
  obtain ⟨l, hl⟩ : pre' <+: pre :=
    prefix_of_prefix_length_le (prefix_append _ _) (heq ▸ prefix_append _ _)
      (by omega)
  subst hl
  rw [append_assoc, append_cancel_left_eq] at heq
  cases l with
  | nil =>
    rw [append_nil] at hlen
    exact hlen le_rfl
  | cons x l =>
    -- the axes behind the one split take in the other, which does not fit
    obtain ⟨rfl, rfl⟩ := List.cons.inj heq
    have hex : m < d * post.prod := h.exceeds.resolve_left (by simp)
    have hl : 0 < l.prod := by
      refine prod_pos (fun y hy => (hpos y ?_).le) fun hz => absurd (hpos 0 ?_) (lt_irrefl 0)
      · rw [h'.dims_eq]
        exact mem_append_right _ (mem_cons_of_mem _ (mem_append_left _ hy))
      · rw [h'.dims_eq]
        exact mem_append_right _ (mem_cons_of_mem _ (mem_append_left _ hz))
    have hfits := h'.fits
    change (l ++ d :: post).prod ≤ m at hfits
    rw [prod_append, prod_cons] at hfits
    have := le_mul_of_one_le_left (hm.trans hex.le) hl
    omega

theorem SplitAt.unique {m : ℤ} {dims pre pre' post post' : List ℤ} {d d' : ℤ}
    (hm : 0 ≤ m) (hpos : ∀ x ∈ dims, 0 < x) (h : SplitAt m dims pre d post)
    (h' : SplitAt m dims pre' d' post') :
    pre = pre' ∧ d = d' ∧ post = post' := by
  have hlen := le_antisymm (h.length_le hm hpos h') (h'.length_le hm hpos h)
  obtain ⟨hpre, hrest⟩ := append_inj (h.dims_eq.symm.trans h'.dims_eq) hlen
  obtain ⟨hd, hpost⟩ := List.cons.inj hrest
  exact ⟨hpre, hd, hpost⟩

/-! ## The pieces and the blocks -/

/-- What the tiling is for: the pieces make up the split axis, each fits into the buffer, and the
blocks make up the loop over the pieces and the axes in front. -/
structure Covers (coreNum maxElemNum : ℤ) (dims : List ℤ) (t : BroadcastTilingData) : Prop where
  split : ∃ pre d post, dims = pre ++ d :: post ∧ t.ubSplitAxis = pre.length ∧
    (t.ubOuter - 1) * t.ubFormer + t.ubTail = d ∧ t.ubFormer * post.prod ≤ maxElemNum ∧
    t.dimProductBeforeUbInner = t.ubOuter * pre.prod
  ubTail_pos : 0 < t.ubTail
  ubTail_le : t.ubTail ≤ t.ubFormer
  blocks : (t.blockNum - 1) * t.blockFormer + t.blockTail = t.dimProductBeforeUbInner
  blockTail_pos : 0 < t.blockTail
  blockTail_le : t.blockTail ≤ t.blockFormer
  blockNum_le : t.blockNum ≤ coreNum

theorem foldl_uint64 : ∀ {l : List ℤ} {p : ℤ}, 0 ≤ p → (∀ d ∈ l, 0 < d) → p * l.prod < 2 ^ 64 →
    l.foldl (fun p d => uint64 (p * d)) p = p * l.prod
  | [], p, _, _, _ => by rw [prod_nil, mul_one]; rfl
  | d :: l, p, hp, hl, hlt => by
    have hl' : ∀ x ∈ l, 0 < x := fun x hx => hl x (mem_cons_of_mem d hx)
    have hpd : 0 ≤ p * d := mul_nonneg hp (hl d mem_cons_self).le
    have hprod : 0 < l.prod :=
      prod_pos (fun x hx => (hl' x hx).le) fun h => absurd (hl' 0 h) (lt_irrefl 0)
    rw [prod_cons, ← mul_assoc] at hlt ⊢
    have := le_mul_of_one_le_right hpd hprod
    rw [foldl_cons, uint64_eq hpd (by omega)]
    exact foldl_uint64 hpd hl' hlt

theorem foldl_uint64_zero : ∀ l : List ℤ, l.foldl (fun p d => uint64 (p * d)) 0 = 0
  | [] => rfl
  | d :: l => by
    rw [foldl_cons, zero_mul]
    exact foldl_uint64_zero l

theorem foldl_uint64_mem : ∀ {l : List ℤ} (p : ℤ), 0 ∈ l → l.foldl (fun p d => uint64 (p * d)) p = 0
  | d :: l, p, h => by
    rw [foldl_cons]
    rcases mem_cons.mp h with rfl | h
    · rw [mul_zero]
      exact foldl_uint64_zero l
    · exact foldl_uint64_mem _ h

theorem int64_eq (h0 : 0 ≤ z) (h : z < 2 ^ 63) : int64 z = .ok z :=
  if_pos ⟨by omega, h⟩

variable {coreNum m shapeLen d f : ℤ} {pre post : List ℤ}

/-- With the axis cut into pieces, the cores cover the space. -/
theorem cutDims_covers (hcore : 1 ≤ coreNum) (hcore' : coreNum < 2 ^ 63) (hpre : ∀ x ∈ pre, 0 < x)
    (hd : 0 < d) (hlt : d * pre.prod < 2 ^ 63) (hf : 0 < f) (hsum : d + f < 2 ^ 63)
    (hfits : f * post.prod ≤ m) :
    ∃ t, cutDims coreNum m (pre ++ d :: post) shapeLen pre.length f = .ok t ∧
      Covers coreNum m (pre ++ d :: post) t := by
  have hP : 0 < pre.prod :=
    prod_pos (fun x hx => (hpre x hx).le) fun h => absurd (hpre 0 h) (lt_irrefl 0)
  -- the pieces
  have hk := pieces_pos hd hf
  have hkd := pieces_le hd hf
  obtain ⟨htail, htail'⟩ := pieces_tail d hf
  have hpieces : divide (d + f - 1) f = .ok (pieces d f) := divide_eq (by omega) hf.ne'
  -- the loop
  have hfused := mul_pos hk hP
  have hfused' : pieces d f * pre.prod < 2 ^ 63 :=
    (mul_le_mul_of_nonneg_right hkd hP.le).trans_lt hlt
  have hfold : pre.foldl (fun p d => uint64 (p * d)) (pieces d f) = pieces d f * pre.prod :=
    foldl_uint64 hk.le hpre (by omega)
  generalize hF : pieces d f * pre.prod = F at *
  -- the blocks
  have hb := pieces_pos hfused hcore
  have hbF := pieces_le hfused hcore
  have hn := pieces_pos hfused hb
  have hnc := pieces_pieces_le hfused hcore
  obtain ⟨hbtail, hbtail'⟩ := pieces_tail F hb
  have hblock : divide (F + coreNum - 1) coreNum = .ok (pieces F coreNum) :=
    divide_eq (by omega) (by omega)
  have hnum : divide (F + pieces F coreNum - 1) (pieces F coreNum) =
      .ok (pieces F (pieces F coreNum)) := divide_eq (by omega) hb.ne'
  generalize hB : pieces F coreNum = B at *
  generalize hN : pieces F B = N at *
  generalize hT : d - (pieces d f - 1) * f = T at *
  generalize hS : F - (N - 1) * B = S at *
  have hu : ∀ {z : ℤ}, 0 ≤ z → z < 2 ^ 64 → uint64 z = z := uint64_eq
  unfold cutDims
  rw [nth_append, ok_bind, int64_eq (by omega) hsum, ok_bind, int64_eq (by omega) (by omega),
    ok_bind, hpieces, ok_bind, take_left, hu hk.le (by omega)]
  dsimp only
  rw [hT, hfold, if_neg (by omega), hu (by omega : 0 ≤ coreNum) (by omega),
    hu (by omega : 0 ≤ F + coreNum - 1) (by omega), hblock, ok_bind,
    hu (by omega : 0 ≤ F + B - 1) (by omega), hnum, ok_bind, hS, hu hbtail.le (by omega),
    hu htail.le (by omega)]
  refine ⟨_, rfl, ⟨⟨pre, d, post, rfl, rfl, ?_, hfits, ?_⟩, ?_, ?_, ?_, ?_, ?_, ?_⟩⟩
  · show (asInt64 (pieces d f) - 1) * f + asInt64 T = d
    rw [asInt64_eq hk.le (by omega), asInt64_eq htail.le (by omega), ← hT]
    ring
  · show asInt64 F = asInt64 (pieces d f) * pre.prod
    rw [asInt64_eq hfused.le hfused', asInt64_eq hk.le (by omega), hF]
  · show 0 < asInt64 T
    rwa [asInt64_eq htail.le (by omega)]
  · show asInt64 T ≤ f
    rwa [asInt64_eq htail.le (by omega)]
  · show (asInt64 N - 1) * asInt64 B + asInt64 S = asInt64 F
    rw [asInt64_eq hn.le (by omega), asInt64_eq hb.le (by omega), asInt64_eq hbtail.le (by omega),
      asInt64_eq hfused.le hfused', ← hS]
    ring
  · show 0 < asInt64 S
    rwa [asInt64_eq hbtail.le (by omega)]
  · show asInt64 S ≤ asInt64 B
    rwa [asInt64_eq hb.le (by omega), asInt64_eq hbtail.le (by omega)]
  · show asInt64 N ≤ coreNum
    rwa [asInt64_eq hn.le (by omega)]

theorem cutDims_eq_ok {t : BroadcastTilingData} (hcore : 1 ≤ coreNum) (hcore' : coreNum < 2 ^ 63)
    (h : cutDims coreNum m (pre ++ d :: post) shapeLen pre.length f = .ok t) :
    f ≠ 0 ∧ d + f < 2 ^ 63 ∧ 0 ∉ pre := by
  unfold cutDims at h
  rw [nth_append, ok_bind] at h
  obtain ⟨s, hs, h⟩ := bind_eq_ok.mp h
  obtain ⟨s', hs', h⟩ := bind_eq_ok.mp h
  obtain ⟨k, hk, h⟩ := bind_eq_ok.mp h
  dsimp only at h
  refine ⟨?_, ?_, fun h0 => ?_⟩
  · rintro rfl
    cases hk
  · unfold int64 at hs
    split at hs
    next hr => exact hr.2
    next => cases hs
  · rw [take_left, foldl_uint64_mem _ h0, if_neg (by omega)] at h
    obtain ⟨b, hb, h⟩ := bind_eq_ok.mp h
    obtain ⟨n, hn, h⟩ := bind_eq_ok.mp h
    rw [zero_add, uint64_eq (by omega) (by omega), uint64_eq (by omega) (by omega),
      divide_eq (by omega) (by omega), Int.ediv_eq_zero_of_lt (by omega) (by omega)] at hb
    cases hb
    cases hn

/-! ## The whole tiling -/

section

variable {dims : List ℤ} {t : BroadcastTilingData} {inShapes : List (List ℤ)} {outShapes : List ℤ}

theorem splitDims_eq (hm : 1 ≤ m) (hs : Sizes dims) (h0 : 0 ∉ dims)
    (h : SplitAt m dims pre d post) :
    splitDims coreNum m dims shapeLen =
      cutDims coreNum m dims shapeLen pre.length (uint32 (m / post.prod)) := by
  have hpos : ∀ x ∈ dims, 0 < x := fun x hx =>
    lt_of_le_of_ne (hs.nonneg x hx) fun hz => h0 (hz ▸ hx)
  have hne : dims ≠ [] := fun hnil => by
    have := h.dims_eq.symm.trans hnil
    exact append_ne_nil_of_right_ne_nil pre (cons_ne_nil d post) this
  obtain ⟨pre', d', post', h', hfind⟩ := findUbSplit_spec hm hs h0 hne
  obtain ⟨rfl, rfl, rfl⟩ := h.unique (by omega) hpos h'
  have hpost : 0 < post.prod :=
    prod_pos (fun x hx => (hpos x (h.dims_eq ▸
      mem_append_right _ (mem_cons_of_mem _ hx))).le) fun hz => h0 (h.dims_eq ▸
      mem_append_right _ (mem_cons_of_mem _ hz))
  have hquot : ubQuotient m post.prod dims = .ok (m / post.prod) := by
    unfold ubQuotient
    split
    next hlen =>
      rw [h.dims_eq, length_append, length_cons] at hlen
      have : post = [] := length_eq_zero_iff.mp (by omega)
      rw [this, prod_nil, Int.ediv_one]
    next => exact divide_eq (by omega) hpost.ne'
  unfold splitDims
  rw [hfind, ok_bind]
  dsimp only
  rw [hquot, ok_bind]

theorem splitDims_zero (hm : 1 ≤ m) (hs : Sizes dims) (h0 : 0 ∈ dims) (hcore : 1 ≤ coreNum)
    (hcore' : coreNum < 2 ^ 63) : splitDims coreNum m dims shapeLen ≠ .ok t := by
  intro h
  unfold splitDims at h
  obtain ⟨⟨c, i⟩, hfind, h⟩ := bind_eq_ok.mp h
  dsimp only at h
  obtain ⟨q, hq, hcut⟩ := bind_eq_ok.mp h
  have hstart := ubSplit_spec (by omega) hs (append_nil dims).symm hm
  rw [prod_nil] at hstart
  unfold findUbSplit at hfind
  rcases hstart with ⟨hrun, -⟩ | ⟨pre, d, post, rfl, -, hex, hrun⟩
  · -- the product of all axes is zero, and so is the quotient by the first
    rw [hrun, ok_bind, prod_eq_zero h0] at hfind
    obtain ⟨d, hd, hfind⟩ := bind_eq_ok.mp hfind
    obtain ⟨c', hc', ⟨⟩⟩ := bind_eq_ok.mp hfind
    have hd0 : uint64 d ≠ 0 := by
      rintro hz
      rw [divide, if_pos hz] at hc'
      cases hc'
    rw [divide_eq le_rfl hd0, Int.zero_ediv] at hc'
    cases hc'
    unfold ubQuotient at hq
    split at hq
    next hlen =>
      obtain ⟨x, rfl⟩ := length_eq_one_iff.mp hlen
      cases hd
      exact hd0 (by rw [← mem_singleton.mp h0]; rfl)
    next => cases hq
  · -- a loop of no turns is divided by the length of its blocks
    rw [hrun, ok_bind] at hfind
    cases hfind
    have hprod : d * post.prod ≠ 0 := by omega
    rcases mem_append.mp h0 with h0 | h0
    · exact (cutDims_eq_ok hcore hcore' hcut).2.2 h0
    · exact hprod (by rw [← prod_cons, prod_eq_zero h0])

/-- With 32 bits for the quotient, and the sum in an `int64_t`. -/
theorem splitDims_covers_iff (hm : 1 ≤ m) (hs : Sizes dims) (hcore : 1 ≤ coreNum)
    (hcore' : coreNum < 2 ^ 63) :
    (∃ t, splitDims coreNum m dims shapeLen = .ok t ∧ Covers coreNum m dims t) ↔
      0 ∉ dims ∧ ∃ pre d post, SplitAt m dims pre d post ∧ m / post.prod % 2 ^ 32 ≠ 0 ∧
        d + m / post.prod % 2 ^ 32 < 2 ^ 63 := by
  constructor
  -- A run that covers ran through: no division by a zero axis, no zero factor, no overflow.
  · intro ⟨t, h, hc⟩
    have h0 : 0 ∉ dims := fun h0 => splitDims_zero hm hs h0 hcore hcore' h
    obtain ⟨pre', d', post', hdims, -⟩ := hc.split
    have hne : dims ≠ [] := by
      rintro rfl
      exact append_ne_nil_of_right_ne_nil pre' (cons_ne_nil d' post') hdims.symm
    obtain ⟨pre, d, post, hsplit, -⟩ := findUbSplit_spec hm hs h0 hne
    rw [splitDims_eq hm hs h0 hsplit, hsplit.dims_eq] at h
    obtain ⟨hf, hsum, -⟩ := cutDims_eq_ok hcore hcore' h
    exact ⟨h0, pre, d, post, hsplit, hf, hsum⟩
  -- The other way the checked products stay below 2^63, and the tile fits the buffer.
  · intro ⟨h0, pre, d, post, hsplit, hf, hsum⟩
    have hpos : ∀ x ∈ dims, 0 < x := fun x hx =>
      lt_of_le_of_ne (hs.nonneg x hx) fun hz => h0 (hz ▸ hx)
    rw [splitDims_eq hm hs h0 hsplit]
    obtain rfl := hsplit.dims_eq
    have hpre : ∀ x ∈ pre, 0 < x := fun x hx => hpos x (mem_append_left _ hx)
    have hd : 0 < d := hpos d (mem_append_right _ mem_cons_self)
    have hpost : 0 < post.prod :=
      prod_pos (fun x hx => (hpos x (mem_append_right _ (mem_cons_of_mem d hx))).le)
        fun hz => h0 (mem_append_right _ (mem_cons_of_mem d hz))
    have hP : 0 < pre.prod := prod_pos (fun x hx => (hpre x hx).le) fun hz =>
      h0 (mem_append_left _ hz)
    have hlt : d * pre.prod < 2 ^ 63 := by
      have hall := hs.lt [] (pre ++ d :: post) rfl
      rw [prod_append, prod_cons] at hall
      have : d * pre.prod ≤ pre.prod * (d * post.prod) := by
        nlinarith [mul_pos hP hd]
      omega
    have hfnn : 0 ≤ uint32 (m / post.prod) := Int.emod_nonneg _ (by decide)
    have hfits : uint32 (m / post.prod) * post.prod ≤ m :=
      calc uint32 (m / post.prod) * post.prod
          ≤ m / post.prod * post.prod := by
            refine mul_le_mul_of_nonneg_right ?_ hpost.le
            exact uint32_le (Int.ediv_nonneg (by omega) hpost.le)
        _ ≤ m := Int.ediv_mul_le m hpost.ne'
    exact cutDims_covers hcore hcore' hpre hd hlt (lt_of_le_of_ne hfnn (Ne.symm hf)) hsum hfits

theorem strideLoop_fits : ∀ {l : List (ℤ × ℤ)} {s : List ℤ} {b : ℤ},
    (∀ a ∈ l, a.1 = a.2) → strideLoop true l = .ok (s, b) →
    ∀ l₁ l₂, l = l₁ ++ l₂ → RowMajor.ins l₂ < 2 ^ 63
  | [], s, b, _, _, l₁, l₂, he => by
    obtain ⟨-, rfl⟩ := append_eq_nil_iff.mp he.symm
    show (1 : ℤ) < _
    omega
  | a :: l, s, b, hl, h, l₁, l₂, he => by
    have hb := (strideLoop_eq_ok (fun _ => hl) h).2
    unfold strideLoop at h
    obtain ⟨⟨s', b'⟩, hrest, h⟩ := bind_eq_ok.mp h
    dsimp only at h
    rw [if_neg (fun hc => absurd hc.2.1 (by decide))] at h
    obtain ⟨p, hp, ⟨⟩⟩ := bind_eq_ok.mp h
    cases l₁ with
    | nil =>
      obtain rfl : a :: l = l₂ := he
      rw [← hb]
      have hpe := int64_eq_ok hp
      unfold int64 at hp
      split at hp
      next hr => exact hpe ▸ hr.2
      next => cases hp
    | cons x l₁ =>
      obtain ⟨rfl, rfl⟩ := List.cons.inj he
      exact strideLoop_fits (fun c hc => hl c (mem_cons_of_mem _ hc)) hrest l₁ l₂ rfl

theorem Collapses.sizes {r : Collapsed} (h : Collapses inShapes outShapes r)
    (hout : ∀ o ∈ outShapes, 0 ≤ o) : Sizes r.outDims where
  nonneg := by
    intro d hd
    rw [h.outDims] at hd
    obtain ⟨g, hg, rfl⟩ := mem_map.mp hd
    refine prod_nonneg fun o ho => hout o ?_
    obtain ⟨a, ha, rfl⟩ := mem_map.mp ho
    have hmem : a ∈ shapeAxes inShapes outShapes := by
      rw [← groups_flatten]
      exact mem_flatten.mpr ⟨g, hg, ha⟩
    rw [← axes_map_out (inShapes.map (padded outShapes.length)) outShapes]
    exact mem_map.mpr ⟨a, hmem, rfl⟩
  lt := by
    intro pre post he
    obtain ⟨⟨s, b⟩, hs, -⟩ := bind_eq_ok.mp h.outStrides
    rw [zip_self] at hs
    have hpost : RowMajor.ins (post.map fun x => (x, x)) = post.prod := by
      rw [RowMajor.ins, map_map]
      show (post.map id).prod = _
      rw [map_id]
    rw [← hpost]
    refine strideLoop_fits (fun a ha => ?_) hs (pre.map fun x => (x, x)) _ ?_
    · obtain ⟨x, _, rfl⟩ := mem_map.mp ha
      rfl
    · rw [he, map_append]

/-- Broadcast tiling of a collapsed output shape, on any number of cores. -/
theorem brodcastTiling_covers_iff {r : Collapsed} {params : BroadcastTilingParams}
    (hout : ∀ o ∈ outShapes, 0 ≤ o) (h : dimensionCollapse inShapes outShapes = .ok r)
    (hmax : brodcastMaxElemNum params = .ok m) (hm : 1 ≤ m) (hcore : 1 ≤ params.coreNum)
    (hcore' : params.coreNum < 2 ^ 63) :
    (∃ t, doBrodcastTiling params r.outDims shapeLen = .ok t ∧
      Covers params.coreNum m r.outDims t) ↔
      0 ∉ r.outDims ∧ ∃ pre d post, SplitAt m r.outDims pre d post ∧
        m / post.prod % 2 ^ 32 ≠ 0 ∧ d + m / post.prod % 2 ^ 32 < 2 ^ 63 := by
  rw [← splitDims_covers_iff hm ((dimensionCollapse_eq_ok h).sizes hout) hcore hcore']
  have hrun : doBrodcastTiling params r.outDims shapeLen =
      splitDims params.coreNum m r.outDims shapeLen := by
    unfold doBrodcastTiling
    rw [hmax, ok_bind, if_neg (by omega)]
  rw [hrun]

/-- Four elements in a buffer for 256, on one core. -/
theorem brodcastTiling_covers_four :
    ∃ t, doBrodcastTiling ⟨1, 256, fun _ => some ⟨8, [0], [8]⟩⟩ [4] 1 = .ok t ∧
      Covers 1 256 [4] t :=
  have h : dimensionCollapse [[4]] [4] = .ok ⟨[[4]], [4], [[1]], [1]⟩ := rfl
  (brodcastTiling_covers_iff (by decide) h rfl (by decide) (by decide) (by decide)).mpr
    ⟨by decide, [], 4, [], ⟨rfl, by decide, Or.inl rfl⟩, by decide, by decide⟩

/-- Neither an output without elements nor one in a buffer for 2^32 is tiled: both divide by
zero. -/
theorem brodcastTiling_divides_by_zero :
    (dimensionCollapse [[1]] [0] = .ok ⟨[[1]], [0], [[0]], [1]⟩ ∧
      brodcastMaxElemNum ⟨1, 256, fun _ => some ⟨8, [0], [8]⟩⟩ = .ok 256 ∧
      doBrodcastTiling ⟨1, 256, fun _ => some ⟨8, [0], [8]⟩⟩ [0] 1 = .error .undefined) ∧
    (dimensionCollapse [[4]] [4] = .ok ⟨[[4]], [4], [[1]], [1]⟩ ∧
      brodcastMaxElemNum ⟨1, 2 ^ 32, fun _ => some ⟨8, [0], [8]⟩⟩ = .ok (2 ^ 32) ∧
      doBrodcastTiling ⟨1, 2 ^ 32, fun _ => some ⟨8, [0], [8]⟩⟩ [4] 1 = .error .undefined) :=
  ⟨⟨rfl, rfl, rfl⟩, rfl, rfl, rfl⟩

end

end OpBase.Tiling
