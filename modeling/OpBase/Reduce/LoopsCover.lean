import OpBase.Reduce.Loops

/-!
# The tiles of a reduction

What the cores of `Process` read, taken together. The tiling data has the numbers of tiles along
the kept and along the reduced axes, and deals them out: without groups a core has
`factorACntPerCore` of the first and all of the second, with groups `groupR` cores in turn have
`factorRCntPerCore` of the second each.

> `process_tiles_iff`: the boxes of all cores are disjoint and make up the shape, and with groups a
> core stays on one tile of the kept axes, exactly if no core has more than 2³¹ blocks.
-/

namespace OpBase.Reduce

open List OpBase.Lib

/-! ## Keys and tiling data -/

/-- `IsAxisA`; all patterns but one begin with a kept axis. -/
def isAxisA (patternID idx : Nat) : Bool := if patternID = 0 then idx % 2 = 1 else idx % 2 = 0

/-- The pattern of so many axes in turn, with the id of what is left of it in a tile. -/
def patternKey (dim : Nat) : Nat :=
  if dim = 1 then 100 else (dim - 1) * 10 + if dim % 2 = 0 then 1 else 0

/-- The keys that are declared: loops along the first `a` kept and the first `k` reduced axes.
The second stage of a group reduction has one of its own. -/
inductive Declared : ReduceSchLoopInfo → Prop
  | normal {dim a k : Nat} {info : ReduceSchLoopInfo} (hdim : dim ≤ 9) (ha : 1 ≤ a)
      (ha' : 2 * a ≤ dim + 1) (hk : 2 * k ≤ dim)
      (h : getSchLoopInfo (patternKey dim) (a * 10) k = some info) : Declared info
  | group {dim a k : Nat} {info : ReduceSchLoopInfo} (hdim : dim ≤ 9) (ha : 1 ≤ a)
      (ha' : 2 * a ≤ dim + 1) (hk : 2 * k ≤ dim) (hk' : 1 ≤ k)
      (h : getSchLoopInfo (patternKey dim) (a * 10 + (a + k)) 0 = some info) : Declared info
  | secondStage : Declared getGroupSchLoopInfo

namespace ReduceSchLoopInfo

def dim (info : ReduceSchLoopInfo) : Nat := patternDim info.patternID

/-- The kept axes with a loop. -/
def aAxes (info : ReduceSchLoopInfo) : List Nat := info.loopAAxis.take info.loopACount

/-- The reduced axes with a loop. With groups they come behind the kept ones. -/
def rAxes (info : ReduceSchLoopInfo) : List Nat :=
  if info.loopRCount = 0 then info.loopInnerRAxis.take info.loopInnerRCount
  else (info.loopRAxis.take info.loopRCount).drop info.loopACount

end ReduceSchLoopInfo

/-- The steps of the loops along these axes, the last of which is cut. -/
def stepsOf (shape : Nat → Nat) (ubFactor : Nat) (axes : List Nat) : Nat :=
  (axes.dropLast.map shape).prod * (axes.getLast?.map fun k => ceilDiv (shape k) ubFactor).getD 1

/-- Tiling data for so many cores. -/
structure ReduceOpTilingData.Covers (tiling : ReduceOpTilingData) (info : ReduceSchLoopInfo)
    (cores : Nat) : Prop where
  shape_pos : ∀ k < info.dim, 1 ≤ tiling.shape k
  cutA : ∀ k < info.dim, CutFits (tiling.shape k) tiling.ubFactorA
  cutR : ∀ k < info.dim, CutFits (tiling.shape k) tiling.ubFactorR
  totalA : tiling.factorATotalCnt = stepsOf tiling.shape tiling.ubFactorA info.aAxes
  totalR : tiling.factorRTotalCnt = stepsOf tiling.shape tiling.ubFactorR info.rAxes
  total_lt : tiling.factorATotalCnt * tiling.factorRTotalCnt < 2 ^ 64
  cores_cover :
    if info.loopRCount = 0 then
      tiling.factorRCntPerCore = tiling.factorRTotalCnt ∧
        tiling.factorATotalCnt ≤ cores * tiling.factorACntPerCore ∧
        cores * tiling.factorACntPerCore < 2 ^ 64
    else
      tiling.factorRTotalCnt ≤ tiling.groupR * tiling.factorRCntPerCore ∧
        tiling.factorATotalCnt * tiling.groupR ≤ cores ∧
        cores * tiling.factorRTotalCnt + tiling.groupR * tiling.factorRCntPerCore < 2 ^ 64

/-- What the core reads; nothing where that is not defined. -/
def boxesRead (info : ReduceSchLoopInfo) (tiling : ReduceOpTilingData) (blockId : Nat) :
    List IterAddr := (process info tiling blockId).getD []

/-- The boxes that the cores read are disjoint and make up the shape, and a core of a group
reads only boxes that are the same on the kept axes. -/
structure VisitsOnce (info : ReduceSchLoopInfo) (tiling : ReduceOpTilingData) (cores : Nat) :
    Prop where
  defined : ∀ b < cores, (process info tiling b).isSome = true
  tiles : Tiles info.dim tiling.shape ((List.range cores).flatMap (boxesRead info tiling))
  kept : info.loopRCount ≠ 0 → ∀ b < cores, ∀ p ∈ boxesRead info tiling b,
    ∀ q ∈ boxesRead info tiling b, ∀ k < info.dim, isAxisA info.patternID k = true → p k = q k

/-- The blocks of R of the first core; no core has more. -/
def ReduceOpTilingData.rCount (tiling : ReduceOpTilingData) : Nat :=
  min tiling.factorRCntPerCore tiling.factorRTotalCnt

/-! ## The axes of a key -/

/-- What the loops of a key are like. -/
structure ReduceSchLoopInfo.Alternates (info : ReduceSchLoopInfo) : Prop where
  hasAxes : info.HasAxes info.aAxes info.rAxes
  lt : ∀ k ∈ info.aAxes ++ info.rAxes, k < info.dim
  reduced : ∀ k ∈ info.rAxes, isAxisA info.patternID k = false

theorem patternKey_spec {dim : Nat} (hpos : 1 ≤ dim) (hle : dim ≤ 9) :
    patternDim (patternKey dim / 10) = dim ∧ patternKey dim / 10 ≠ 0 := by
  unfold patternKey
  split
  next h => exact ⟨h.symm, by decide⟩
  next h =>
    have hdiv : ((dim - 1) * 10 + if dim % 2 = 0 then 1 else 0) / 10 = dim - 1 := by
      split <;> omega
    rw [hdiv]
    unfold patternDim
    rw [if_neg (by omega), if_neg (by omega)]
    omega

/-- The kept axes of the longest pattern. -/
def evenAxes : List Nat := [0, 2, 4, 6, 8]

/-- The reduced axes of the longest pattern. -/
def oddAxes : List Nat := [1, 3, 5, 7]

theorem getSchLoopInfo_eq {patternID loopARCount inner : Nat} {info : ReduceSchLoopInfo}
    (h : getSchLoopInfo patternID loopARCount inner = some info) :
    info = schLoopInfo (evenAxes.take (loopARCount / 10))
      (evenAxes.take (loopARCount / 10) ++ oddAxes) patternID loopARCount inner := by
  unfold getSchLoopInfo at h
  split at h
  iterate 6
    next heq =>
      rw [heq]
      exact (Option.some.inj h).symm
  next => exact absurd h (by simp)

theorem alternates_of {info : ReduceSchLoopInfo} {a k : Nat} (ha : 1 ≤ a)
    (ha' : 2 * a ≤ info.dim + 1) (hk : 2 * k ≤ info.dim) (hdim : info.dim ≤ 9)
    (hpattern : info.patternID ≠ 0) (haAxes : info.aAxes = evenAxes.take a)
    (hrAxes : info.rAxes = oddAxes.take k) (hasAxes : info.HasAxes info.aAxes info.rAxes) :
    info.Alternates := by
  have heven : ∀ a ≤ 5, ∀ x ∈ evenAxes.take a, x + 2 ≤ 2 * a := by decide
  have hodd : ∀ k ≤ 4, ∀ x ∈ oddAxes.take k, x + 1 ≤ 2 * k ∧ x % 2 = 1 := by decide
  refine ⟨hasAxes, fun x hx => ?_, fun x hx => ?_⟩
  · rw [haAxes, hrAxes] at hx
    rcases mem_append.mp hx with hx | hx
    · have := heven a (by omega) x hx
      omega
    · have := hodd k (by omega) x hx
      omega
  · rw [hrAxes] at hx
    have := (hodd k (by omega) x hx).2
    unfold isAxisA
    rw [if_neg hpattern, decide_eq_false_iff_not]
    omega

theorem nodup_take (a k : Nat) : (evenAxes.take a ++ oddAxes.take k).Nodup := by
  have hall : (evenAxes ++ oddAxes).Nodup := by decide
  exact hall.sublist ((take_sublist a evenAxes).append (take_sublist k oddAxes))

theorem length_take_axes {l : List Nat} {n : Nat} (h : n ≤ l.length) : (l.take n).length = n := by
  rw [length_take, Nat.min_eq_left h]

/-- In every declared key the axes alternate. -/
theorem Declared.alternates {info : ReduceSchLoopInfo} (h : Declared info) : info.Alternates := by
  cases h with
  | @normal dim a k _ hdim ha ha' hk h =>
    -- the R axes stand by themselves: the second digit is zero
    obtain ⟨hpattern, hne⟩ := patternKey_spec (by omega) hdim
    have hlenA := length_take_axes (show a ≤ evenAxes.length by change a ≤ 5; omega)
    have hlenR := length_take_axes (show k ≤ oddAxes.length by change k ≤ 4; omega)
    have hcount : a * 10 / 10 = a := Nat.mul_div_cancel a (by decide)
    have hzero : a * 10 % 10 = 0 := Nat.mul_mod_left a 10
    have hinner : k % 10 = k := Nat.mod_eq_of_lt (by omega)
    have hinfo := getSchLoopInfo_eq h
    rw [hcount] at hinfo
    have haAxes : info.aAxes = evenAxes.take a := by
      rw [hinfo]
      change (evenAxes.take a).take (a * 10 / 10) = _
      rw [hcount, take_take, Nat.min_self]
    have hrAxes : info.rAxes = oddAxes.take k := by
      rw [hinfo]
      change (if a * 10 % 10 = 0 then oddAxes.take (k % 10) else _) = _
      rw [if_pos hzero, hinner]
    have hdim' : info.dim = dim := by rw [hinfo]; exact hpattern
    refine alternates_of ha (by omega) (by omega) (by omega) (by rw [hinfo]; exact hne) haAxes
      hrAxes ⟨?_, ?_, ?_, Or.inl ?_, ?_⟩
    · exact ne_nil_of_length_pos (by rw [haAxes, hlenA]; exact ha)
    · rw [haAxes, hlenA, hinfo]
      exact ⟨hcount, prefix_refl _⟩
    · rw [hinfo]
      exact Nat.div_eq_of_lt (by omega)
    · rw [hrAxes, hlenR, hinfo]
      exact ⟨hzero, hinner, take_prefix k oddAxes⟩
    · rw [haAxes, hrAxes]
      exact nodup_take a k
  | @group dim a k _ hdim ha ha' hk hk' h =>
    -- the R axes follow the A axes in one list
    obtain ⟨hpattern, hne⟩ := patternKey_spec (by omega) hdim
    have hlenA := length_take_axes (show a ≤ evenAxes.length by change a ≤ 5; omega)
    have hlenR := length_take_axes (show k ≤ oddAxes.length by change k ≤ 4; omega)
    have hcount : (a * 10 + (a + k)) / 10 = a := by omega
    have hcountR : (a * 10 + (a + k)) % 10 = a + k := by omega
    have hinfo := getSchLoopInfo_eq h
    rw [hcount] at hinfo
    have haAxes : info.aAxes = evenAxes.take a := by
      rw [hinfo]
      change (evenAxes.take a).take ((a * 10 + (a + k)) / 10) = _
      rw [hcount, take_take, Nat.min_self]
    have htake : (evenAxes.take a ++ oddAxes).take (a + k) = evenAxes.take a ++ oddAxes.take k := by
      rw [take_append, hlenA, Nat.add_sub_cancel_left, take_of_length_le (by omega)]
    have hrAxes : info.rAxes = oddAxes.take k := by
      rw [hinfo]
      change (if (a * 10 + (a + k)) % 10 = 0 then _ else
        ((evenAxes.take a ++ oddAxes).take ((a * 10 + (a + k)) % 10)).drop
          ((a * 10 + (a + k)) / 10)) = _
      rw [if_neg (by omega), hcountR, hcount, htake, drop_left' hlenA]
    have hdim' : info.dim = dim := by rw [hinfo]; exact hpattern
    refine alternates_of ha (by omega) (by omega) (by omega) (by rw [hinfo]; exact hne) haAxes
      hrAxes ⟨?_, ?_, ?_, Or.inr ⟨?_, ?_, ?_⟩, ?_⟩
    · exact ne_nil_of_length_pos (by rw [haAxes, hlenA]; exact ha)
    · rw [haAxes, hlenA, hinfo]
      exact ⟨hcount, prefix_refl _⟩
    · rw [hinfo]
      rfl
    · exact ne_nil_of_length_pos (by rw [hrAxes, hlenR]; exact hk')
    · rw [haAxes, hrAxes, length_append, hlenA, hlenR, hinfo]
      exact hcountR
    · rw [haAxes, hrAxes, hinfo, ← htake]
      exact take_prefix _ _
    · rw [haAxes, hrAxes]
      exact nodup_take a k
  | secondStage =>
    exact ⟨⟨by decide, by decide, rfl, Or.inl ⟨rfl, rfl, by decide⟩, by decide⟩, by decide,
      by decide⟩

/-! ## The steps of the cores -/

variable {shape : Nat → Nat} {ubFactor : Nat} {axes : List Nat}

theorem stepCount_nestOf (h : ∀ k ∈ axes, CutFits (shape k) ubFactor) :
    stepCount (nestOf shape ubFactor axes) = stepsOf shape ubFactor axes := by
  rcases eq_nil_or_concat' axes with rfl | ⟨init, k, rfl⟩
  · rfl
  · have hcut := h k (mem_append_right _ mem_cons_self)
    unfold stepsOf
    rw [nestOf_concat, stepCount_cons, dropLast_concat, getLast?_concat, Option.map_some,
      Option.getD_some, ceilDiv_eq_count hcut k, Nat.mul_comm]
    unfold stepCount
    rw [map_map, map_reverse, prod_reverse]
    rfl

section Cover

variable {info : ReduceSchLoopInfo} {tiling : ReduceOpTilingData} {cores blockId : Nat}

theorem setLoopRange_normal (hloopR : info.loopRCount = 0)
    (hfit : cores * tiling.factorACntPerCore < 2 ^ 64) (hb : blockId < cores) :
    (setLoopRange info tiling blockId).loopAStartIndex = blockId * tiling.factorACntPerCore ∧
    (setLoopRange info tiling blockId).loopAEndIndex =
      min (blockId * tiling.factorACntPerCore + tiling.factorACntPerCore)
        tiling.factorATotalCnt := by
  have hmul := Nat.mul_le_mul_right tiling.factorACntPerCore (Nat.succ_le_of_lt hb)
  rw [Nat.succ_mul] at hmul
  unfold setLoopRange
  rw [if_pos hloopR]
  dsimp only
  rw [Nat.mod_eq_of_lt (by omega), Nat.mod_eq_of_lt (by omega)]
  refine ⟨rfl, ?_⟩
  split <;> omega

/-- The share of a core in a group, without wrapping. -/
theorem setLoopRange_group (hloopR : info.loopRCount ≠ 0)
    (hlt : tiling.factorATotalCnt * tiling.factorRTotalCnt < 2 ^ 64)
    (hfit : cores * tiling.factorRTotalCnt + tiling.groupR * tiling.factorRCntPerCore < 2 ^ 64)
    {g j : Nat} (hg : g < cores) (hj : j < tiling.groupR)
    (hb : blockId = g * tiling.groupR + j) :
    (setLoopRange info tiling blockId).loopRStartIndex =
      min (g * tiling.factorRTotalCnt + j * tiling.factorRCntPerCore)
        (min (g * tiling.factorRTotalCnt + tiling.factorRTotalCnt)
          (tiling.factorATotalCnt * tiling.factorRTotalCnt)) ∧
    (setLoopRange info tiling blockId).loopREndIndex =
      min (g * tiling.factorRTotalCnt + j * tiling.factorRCntPerCore + tiling.factorRCntPerCore)
        (min (g * tiling.factorRTotalCnt + tiling.factorRTotalCnt)
          (tiling.factorATotalCnt * tiling.factorRTotalCnt)) := by
  -- the block is number `j` of group `g`
  have hdiv : blockId / tiling.groupR = g := by
    rw [hb, Nat.mul_comm, Nat.mul_add_div (Nat.zero_lt_of_lt hj), Nat.div_eq_of_lt hj, Nat.add_zero]
  have hmod : blockId % tiling.groupR = j := by
    rw [hb, Nat.mul_comm, Nat.mul_add_mod, Nat.mod_eq_of_lt hj]
  have hrow := Nat.mul_le_mul_right tiling.factorRTotalCnt (Nat.succ_le_of_lt hg)
  have hcol := Nat.mul_le_mul_right tiling.factorRCntPerCore (Nat.succ_le_of_lt hj)
  rw [Nat.succ_mul] at hrow hcol
  unfold setLoopRange
  rw [if_neg hloopR]
  dsimp only
  rw [hdiv, hmod, Nat.succ_mul, Nat.mod_eq_of_lt hlt, Nat.mod_eq_of_lt (by omega),
    Nat.mod_eq_of_lt (by omega), Nat.mod_eq_of_lt (by omega)]
  constructor
  · split <;> split <;> omega
  · split <;> split <;> omega

theorem stepsOf_pos (h : ∀ k ∈ axes, 1 ≤ shape k ∧ CutFits (shape k) ubFactor) :
    0 < stepsOf shape ubFactor axes := by
  rw [← stepCount_nestOf fun k hk => (h k hk).2]
  rcases eq_nil_or_concat' axes with rfl | ⟨init, k, rfl⟩
  · exact Nat.one_pos
  · refine stepCount_pos fun l hl => ?_
    rw [nestOf_concat, mem_cons, mem_map] at hl
    rcases hl with rfl | ⟨j, hj, rfl⟩
    · obtain ⟨hpos, hcut⟩ := h k (mem_append_right _ mem_cons_self)
      exact cutLoop_count_pos k hcut.1 hpos
    · exact (h j (mem_append_left _ (mem_reverse.mp hj))).1

/-- If the tiling covers the shape, its counts are those of the loops. -/
theorem ReduceOpTilingData.Covers.fits (h : tiling.Covers info cores) (hkey : info.Alternates) :
    tiling.Fits info.aAxes info.rAxes ∧
      stepCount (nestOf tiling.shape tiling.ubFactorR info.rAxes) = tiling.factorRTotalCnt ∧
      stepCount (nestOf tiling.shape tiling.ubFactorA info.aAxes) = tiling.factorATotalCnt ∧
      0 < tiling.factorATotalCnt ∧ 0 < tiling.factorRTotalCnt := by
  have hltA : ∀ k ∈ info.aAxes, k < info.dim := fun k hk => hkey.lt k (mem_append_left _ hk)
  have hltR : ∀ k ∈ info.rAxes, k < info.dim := fun k hk => hkey.lt k (mem_append_right _ hk)
  refine ⟨⟨fun k hk => h.shape_pos k (hkey.lt k hk), fun k hk => h.cutA k (hltA k hk),
    fun k hk => h.cutR k (hltR k hk)⟩, ?_, ?_, ?_, ?_⟩
  · rw [h.totalR, stepCount_nestOf fun k hk => h.cutR k (hltR k hk)]
  · rw [h.totalA, stepCount_nestOf fun k hk => h.cutA k (hltA k hk)]
  · rw [h.totalA]
    exact stepsOf_pos fun k hk => ⟨h.shape_pos k (hltA k hk), h.cutA k (hltA k hk)⟩
  · rw [h.totalR]
    exact stepsOf_pos fun k hk => ⟨h.shape_pos k (hltR k hk), h.cutR k (hltR k hk)⟩

/-- The cores together read every tile, and once. -/
theorem process_normal_perm (hkey : info.Alternates) (h : tiling.Covers info cores)
    (hloopR : info.loopRCount = 0) (hle : tiling.rCount ≤ 2 ^ 31) :
    (∀ b < cores, (process info tiling b).isSome = true) ∧
    ((List.range cores).flatMap (boxesRead info tiling)).Perm
      ((List.range (tiling.factorATotalCnt * tiling.factorRTotalCnt)).map
        (tiling.tile info.aAxes info.rAxes)) := by
  obtain ⟨hfits, hcount, -, -, -⟩ := h.fits hkey
  have hcover := h.cores_cover
  rw [if_pos hloopR] at hcover
  obtain ⟨hR, hA, hfit⟩ := hcover
  unfold ReduceOpTilingData.rCount at hle
  rw [hR, Nat.min_self] at hle
  obtain ⟨range, hset, hperm⟩ := readOrder_range hle
  have hprocess := process_normal hkey.hasAxes hfits hloopR (hR ▸ hset)
  refine ⟨fun b _ => by rw [hprocess]; rfl, ?_⟩
  -- a block reads the rows of its own A indices
  have hboxes : ∀ b ∈ List.range cores, boxesRead info tiling b =
      (List.range' (0 + b * tiling.factorACntPerCore)
        (min (b * tiling.factorACntPerCore + tiling.factorACntPerCore) tiling.factorATotalCnt -
          b * tiling.factorACntPerCore)).flatMap fun i =>
      (readOrder range).map fun r =>
        tiling.tile info.aAxes info.rAxes (i * tiling.factorRTotalCnt + r) := fun b hb => by
    obtain ⟨hstart, hend⟩ := setLoopRange_normal hloopR hfit (mem_range.mp hb)
    unfold boxesRead
    rw [hprocess, Option.getD_some, hstart, hend, Nat.zero_add]
    refine flatMap_congr fun i _ => map_congr_left fun r hr => ?_
    have hlt := mem_range.mp (hperm.mem_iff.mp hr)
    rw [← hcount] at hlt ⊢
    exact (setAxes_pair (hkey.hasAxes.apart tiling) hlt).symm
  rw [flatMap_congr hboxes, ← flatMap_assoc, flatMap_parts, Nat.min_eq_right hA,
    ← range_eq_range', map_eq_flatMap, ← flatMap_rows]
  refine List.Perm.flatMap_left _ fun i _ => ?_
  rw [← map_eq_flatMap]
  exact hperm.map _

theorem range'_eq_of {s s' n n' : Nat} (hn : n = n') (hs : 0 < n → s = s') :
    List.range' s n = List.range' s' n' := by
  subst hn
  rcases Nat.eq_zero_or_pos n with rfl | hpos
  · rfl
  · rw [hs hpos]

/-! ## The boxes -/

theorem nestOf_cuts (h : ∀ k ∈ axes, CutFits (shape k) ubFactor) :
    ∀ l ∈ nestOf shape ubFactor axes, l.Cuts (shape l.axis) := by
  rcases eq_nil_or_concat' axes with rfl | ⟨init, k, rfl⟩
  · exact fun l hl => absurd hl not_mem_nil
  · intro l hl
    rw [nestOf_concat, mem_cons, mem_map] at hl
    rcases hl with rfl | ⟨j, -, rfl⟩
    · exact cutLoop_cuts k (shape k) (h k (mem_append_right _ mem_cons_self)).1
    · exact unitLoop_cuts j (shape j)

theorem nest_axes (tiling : ReduceOpTilingData) (aAxes rAxes : List Nat) :
    (tiling.nest aAxes rAxes).map (·.axis) = rAxes.reverse ++ aAxes.reverse := by
  unfold ReduceOpTilingData.nest
  rw [map_append, nestOf_axes, nestOf_axes]

theorem tile_kept (hcount : stepCount (nestOf tiling.shape tiling.ubFactorR info.rAxes) =
      tiling.factorRTotalCnt) {k : Nat} (hk : k ∉ info.rAxes) {g step : Nat}
    (hrow : step / tiling.factorRTotalCnt = g) :
    tiling.tile info.aAxes info.rAxes step k =
      setAxes (nestOf tiling.shape tiling.ubFactorA info.aAxes) g (initAddr tiling) k := by
  unfold ReduceOpTilingData.tile ReduceOpTilingData.nest
  rw [setAxes_append, hcount, hrow]
  refine setAxes_congr fun _ => setAxes_of_notMem ?_
  rwa [nestOf_axes, mem_reverse]

section

variable (hkey : info.Alternates) (h : tiling.Covers info cores) (hloopR : info.loopRCount ≠ 0)
include hkey h hloopR

theorem process_group_range {start stop : Nat}
    (hstart : (setLoopRange info tiling blockId).loopRStartIndex = start)
    (hstop : (setLoopRange info tiling blockId).loopREndIndex = stop) (hle : start ≤ stop)
    (hlt : stop < 2 ^ 64) (hcount : stop - start ≤ 2 ^ 31) :
    (process info tiling blockId).isSome = true ∧ (boxesRead info tiling blockId).Perm
      ((List.range' start (stop - start)).map (tiling.tile info.aAxes info.rAxes)) := by
  have hrCount : iterRCount info tiling (setLoopRange info tiling blockId) = stop - start := by
    unfold iterRCount
    rw [if_neg hloopR, hstart, hstop]
    omega
  obtain ⟨range, hset, hperm⟩ := readOrder_range hcount
  unfold boxesRead
  rw [process_group hkey.hasAxes (h.fits hkey).1 hloopR (hrCount ▸ hset), hstart,
    range'_eq_map_range, map_map]
  refine ⟨rfl, (hperm.map _).trans (List.Perm.of_eq (map_congr_left fun r hr => ?_))⟩
  have hr' := mem_range.mp hr
  rw [Nat.mod_eq_of_lt (by omega), Nat.add_comm]
  rfl

/-- A core of a group reads the tiles of its share, and once. -/
theorem process_group_part (hle : tiling.rCount ≤ 2 ^ 31) {g j : Nat}
    (hg : g < tiling.factorATotalCnt) (hj : j < tiling.groupR) :
    (process info tiling (g * tiling.groupR + j)).isSome = true ∧
      (boxesRead info tiling (g * tiling.groupR + j)).Perm
        ((List.range' (g * tiling.factorRTotalCnt + j * tiling.factorRCntPerCore)
          (min (j * tiling.factorRCntPerCore + tiling.factorRCntPerCore) tiling.factorRTotalCnt -
            j * tiling.factorRCntPerCore)).map (tiling.tile info.aAxes info.rAxes)) := by
  have hcover := h.cores_cover
  rw [if_neg hloopR] at hcover
  obtain ⟨-, hcores, hfit⟩ := hcover
  have hgcores : g < cores := Nat.lt_of_lt_of_le hg
    (Nat.le_trans (Nat.le_mul_of_pos_right _ (Nat.zero_lt_of_lt hj)) hcores)
  obtain ⟨hstart, hstop⟩ := setLoopRange_group hloopR h.total_lt hfit hgcores hj rfl
  have hrow := Nat.mul_le_mul_right tiling.factorRTotalCnt (Nat.succ_le_of_lt hg)
  rw [Nat.succ_mul] at hrow
  rw [Nat.min_eq_left hrow] at hstart hstop
  have htotal := h.total_lt
  unfold ReduceOpTilingData.rCount at hle
  obtain ⟨hsome, hperm⟩ :=
    process_group_range hkey h hloopR hstart hstop (by omega) (by omega) (by omega)
  -- where nothing of the tile is left for the core, both are empty
  refine ⟨hsome,
    hperm.trans (List.Perm.of_eq (congrArg (List.map _) (range'_eq_of ?_ fun hpos => ?_)))⟩
  · omega
  · omega

theorem process_group_idle (hgroup : 0 < tiling.groupR) (hb : blockId < cores)
    (hg : tiling.factorATotalCnt ≤ blockId / tiling.groupR) :
    (process info tiling blockId).isSome = true ∧ boxesRead info tiling blockId = [] := by
  have hcover := h.cores_cover
  rw [if_neg hloopR] at hcover
  obtain ⟨-, -, hfit⟩ := hcover
  have hrow := Nat.mul_le_mul_right tiling.factorRTotalCnt hg
  have htotal := h.total_lt
  obtain ⟨hstart, hstop⟩ := setLoopRange_group hloopR htotal hfit
    (Nat.lt_of_le_of_lt (Nat.div_le_self _ _) hb) (Nat.mod_lt blockId hgroup)
    (Nat.div_add_mod' blockId tiling.groupR).symm
  obtain ⟨hsome, hnone⟩ :=
    process_group_range hkey h hloopR hstart hstop (by omega) (by omega) (by omega)
  refine ⟨hsome, eq_nil_of_length_eq_zero (hnone.length_eq.trans ?_)⟩
  rw [length_map, length_range']
  omega

theorem ReduceOpTilingData.Covers.groupR_pos : 0 < tiling.groupR := by
  obtain ⟨-, -, -, -, hposR⟩ := h.fits hkey
  have hcover := h.cores_cover
  rw [if_neg hloopR] at hcover
  refine Nat.pos_of_ne_zero fun hzero => ?_
  rw [hzero, Nat.zero_mul] at hcover
  exact Nat.not_lt.mpr hcover.1 hposR

theorem process_group_isSome (hle : tiling.rCount ≤ 2 ^ 31) {b : Nat} (hb : b < cores) :
    (process info tiling b).isSome = true := by
  have hgroup := h.groupR_pos hkey hloopR
  rcases Nat.lt_or_ge (b / tiling.groupR) tiling.factorATotalCnt with hlt | hge
  · have hpart := process_group_part hkey h hloopR hle hlt (Nat.mod_lt b hgroup)
    rw [Nat.div_add_mod'] at hpart
    exact hpart.1
  · exact (process_group_idle hkey h hloopR hgroup hb hge).1

/-- The groups together read every tile, and once. -/
theorem process_group_perm (hle : tiling.rCount ≤ 2 ^ 31) :
    ((List.range cores).flatMap (boxesRead info tiling)).Perm
      ((List.range (tiling.factorATotalCnt * tiling.factorRTotalCnt)).map
        (tiling.tile info.aAxes info.rAxes)) := by
  have hgroup := h.groupR_pos hkey hloopR
  have hcover := h.cores_cover
  rw [if_neg hloopR] at hcover
  obtain ⟨hR, hcores, -⟩ := hcover
  obtain ⟨rest, hrest⟩ := Nat.exists_eq_add_of_le hcores
  have hidle : ∀ b ∈ List.range rest,
      boxesRead info tiling (tiling.factorATotalCnt * tiling.groupR + b) = [] := fun b hb => by
    have hlt := mem_range.mp hb
    exact (process_group_idle hkey h hloopR hgroup (by omega)
      ((Nat.le_div_iff_mul_le hgroup).mpr (Nat.le_add_right _ _))).2
  have hnil : (List.range rest).flatMap (fun _ => ([] : List IterAddr)) = [] :=
    flatMap_eq_nil_iff.mpr fun _ _ => rfl
  rw [hrest, range_add, flatMap_append, flatMap_map, flatMap_congr hidle, hnil,
    append_nil, map_eq_flatMap, ← flatMap_rows, ← flatMap_rows]
  refine List.Perm.flatMap_left _ fun g hg => ?_
  have hparts := List.Perm.flatMap_left (List.range tiling.groupR) fun j hj =>
    (process_group_part hkey h hloopR hle (mem_range.mp hg) (mem_range.mp hj)).2
  rw [← map_flatMap, flatMap_parts, Nat.min_eq_right hR, range'_eq_map_range, map_map] at hparts
  refine hparts.trans (List.Perm.of_eq ?_)
  rw [map_eq_flatMap]
  rfl

theorem process_group_kept (hle : tiling.rCount ≤ 2 ^ 31) {b : Nat} (hb : b < cores) :
    ∃ g, ∀ p ∈ boxesRead info tiling b, ∀ k ∉ info.rAxes,
      p k = setAxes (nestOf tiling.shape tiling.ubFactorA info.aAxes) g (initAddr tiling) k := by
  have hgroup := h.groupR_pos hkey hloopR
  obtain ⟨-, hcount, -, -, hposR⟩ := h.fits hkey
  refine ⟨b / tiling.groupR, fun p hp k hk => ?_⟩
  rcases Nat.lt_or_ge (b / tiling.groupR) tiling.factorATotalCnt with hlt | hge
  · have hpart := (process_group_part hkey h hloopR hle hlt (Nat.mod_lt b hgroup)).2
    rw [Nat.div_add_mod'] at hpart
    obtain ⟨step, hstep, rfl⟩ := mem_map.mp (hpart.mem_iff.mp hp)
    rw [mem_range'_1] at hstep
    refine tile_kept hcount hk (Nat.div_eq_of_lt_le ?_ ?_)
    · omega
    · rw [Nat.succ_mul]
      omega
  · rw [(process_group_idle hkey h hloopR hgroup hb hge).2] at hp
    exact absurd hp not_mem_nil

end

/-- Up to 2³¹ blocks a core, all boxes are visited. -/
theorem visitsOnce_of_le (hkey : info.Alternates) (h : tiling.Covers info cores)
    (hle : tiling.rCount ≤ 2 ^ 31) : VisitsOnce info tiling cores := by
  obtain ⟨hfits, hcountR, hcountA, -, -⟩ := h.fits hkey
  have hread : (∀ b < cores, (process info tiling b).isSome = true) ∧
      ((List.range cores).flatMap (boxesRead info tiling)).Perm
        ((List.range (tiling.factorATotalCnt * tiling.factorRTotalCnt)).map
          (tiling.tile info.aAxes info.rAxes)) := by
    by_cases hloopR : info.loopRCount = 0
    · exact process_normal_perm hkey h hloopR hle
    · exact ⟨fun b => process_group_isSome hkey h hloopR hle,
        process_group_perm hkey h hloopR hle⟩
  have hsteps : stepCount (tiling.nest info.aAxes info.rAxes) =
      tiling.factorATotalCnt * tiling.factorRTotalCnt := by
    unfold ReduceOpTilingData.nest
    rw [stepCount_append, hcountR, hcountA, Nat.mul_comm]
  have haxes := nest_axes tiling info.aAxes info.rAxes
  refine ⟨hread.1, ?_, fun hloopR b hb p hp q hq k hk hkept => ?_⟩
  · -- all blocks together read the boxes of the loop nest, each one once
    refine tiles_of_perm (tiling.nest info.aAxes info.rAxes) (initAddr tiling) ?_
      (fun l hl => ?_) (fun l hl => ?_) (fun k hk _ => ⟨h.shape_pos k hk, rfl⟩) ?_
    · rw [haxes, ← reverse_append]
      exact nodup_reverse.mpr hkey.hasAxes.nodup
    · have hmem := mem_map_of_mem (f := (·.axis)) hl
      rw [haxes, ← reverse_append, mem_reverse] at hmem
      exact hkey.lt _ hmem
    · rcases mem_append.mp hl with hl | hl
      · exact nestOf_cuts hfits.cutR l hl
      · exact nestOf_cuts hfits.cutA l hl
    · rw [hsteps]
      exact hread.2
  · obtain ⟨g, hsame⟩ := process_group_kept hkey h hloopR hle hb
    have hnot : k ∉ info.rAxes := fun hmem => by
      rw [hkey.reduced k hmem] at hkept
      exact Bool.false_ne_true hkept
    rw [hsame p hp k hnot, hsame q hq k hnot]

theorem ReduceOpTilingData.Covers.cores_pos (hkey : info.Alternates)
    (h : tiling.Covers info cores) : 0 < cores := by
  obtain ⟨-, -, -, hposA, -⟩ := h.fits hkey
  have hcover := h.cores_cover
  by_cases hloopR : info.loopRCount = 0
  · rw [if_pos hloopR] at hcover
    exact Nat.pos_of_mul_pos_right (Nat.lt_of_lt_of_le hposA hcover.2.1)
  · rw [if_neg hloopR] at hcover
    exact Nat.lt_of_lt_of_le (Nat.mul_pos hposA (h.groupR_pos hkey hloopR)) hcover.2.1

/-- Beyond, the first core reads its first box twice. -/
theorem boxesRead_not_nodup (hkey : info.Alternates) (h : tiling.Covers info cores)
    (hgt : 2 ^ 31 < tiling.rCount) (hdefined : (process info tiling 0).isSome = true) :
    ¬(boxesRead info tiling 0).Nodup := by
  obtain ⟨hfits, -, -, hposA, -⟩ := h.fits hkey
  have hcores := h.cores_pos hkey
  have hcover := h.cores_cover
  have hlt : tiling.rCount < 2 ^ 64 := Nat.lt_of_le_of_lt (Nat.min_le_right _ _)
    (Nat.lt_of_le_of_lt (Nat.le_mul_of_pos_left _ hposA) h.total_lt)
  obtain ⟨boxes, hboxes⟩ := Option.isSome_iff_exists.mp hdefined
  obtain ⟨range, hset, -⟩ := Option.map_eq_some_iff.mp hboxes
  intro hnodup
  unfold boxesRead at hnodup
  by_cases hloopR : info.loopRCount = 0
  · rw [if_pos hloopR] at hcover
    obtain ⟨hR, hA, hfit⟩ := hcover
    have hcore := Nat.pos_of_mul_pos_left (Nat.lt_of_lt_of_le hposA hA)
    have hcount : tiling.rCount = tiling.factorRCntPerCore := by
      unfold ReduceOpTilingData.rCount
      rw [hR, Nat.min_self]
    unfold iterRCount at hset
    rw [if_pos hloopR] at hset
    obtain ⟨hstart, hend⟩ := setLoopRange_normal hloopR hfit hcores
    obtain ⟨n, hn⟩ : ∃ n, min (0 * tiling.factorACntPerCore + tiling.factorACntPerCore)
        tiling.factorATotalCnt - 0 * tiling.factorACntPerCore = n + 1 :=
      ⟨min tiling.factorACntPerCore tiling.factorATotalCnt - 1, by omega⟩
    rw [process_normal hkey.hasAxes hfits hloopR hset, hstart, hend, hn, Option.getD_some,
      range'_succ, flatMap_cons] at hnodup
    exact readOrder_not_nodup hgt hlt (hcount ▸ hset) (nodup_append.mp hnodup).1.of_map
  · rw [if_neg hloopR] at hcover
    obtain ⟨hstart, hstop⟩ := setLoopRange_group hloopR h.total_lt hcover.2.2 hcores
      (h.groupR_pos hkey hloopR) (show 0 = 0 * tiling.groupR + 0 by rw [Nat.zero_mul])
    have hrow := Nat.le_mul_of_pos_left tiling.factorRTotalCnt hposA
    have hcount : iterRCount info tiling (setLoopRange info tiling 0) = tiling.rCount := by
      unfold iterRCount ReduceOpTilingData.rCount
      rw [if_neg hloopR, hstart, hstop]
      omega
    rw [process_group hkey.hasAxes hfits hloopR hset, Option.getD_some] at hnodup
    exact readOrder_not_nodup hgt hlt (hcount ▸ hset) hnodup.of_map

theorem VisitsOnce.rCount_le (hvisits : VisitsOnce info tiling cores) (hkey : info.Alternates)
    (h : tiling.Covers info cores) : tiling.rCount ≤ 2 ^ 31 := by
  have hpos := h.cores_pos hkey
  by_contra hgt
  exact boxesRead_not_nodup hkey h (by omega) (hvisits.defined 0 hpos)
    ((nodup_flatMap.mp hvisits.tiles.nodup).1 0 (mem_range.mpr hpos))

/-- All boxes are visited once exactly if no core has more than 2³¹ blocks of R. -/
theorem process_tiles_iff (hkey : Declared info) (h : tiling.Covers info cores) :
    VisitsOnce info tiling cores ↔ tiling.rCount ≤ 2 ^ 31 :=
  ⟨fun hvisits => hvisits.rCount_le hkey.alternates h, visitsOnce_of_le hkey.alternates h⟩

/-- Three rows of ten: two tiles along the rows and three along the columns, which two cores
share. -/
def sharedTiling : ReduceOpTilingData where
  factorACntPerCore := 1
  factorATotalCnt := 2
  ubFactorA := 2
  factorRCntPerCore := 2
  factorRTotalCnt := 3
  ubFactorR := 4
  groupR := 2
  shape k := if k = 0 then 3 else 10

def sharedInfo : ReduceSchLoopInfo := getSchLoopInfo1 11 12 0

theorem process_tiles_iff_shared :
    VisitsOnce sharedInfo sharedTiling 4 ↔ sharedTiling.rCount ≤ 2 ^ 31 :=
  process_tiles_iff
    (Declared.group (show 2 ≤ 9 by decide) (show 1 ≤ 1 by decide) (by decide)
      (show 2 * 1 ≤ 2 by decide) (by decide) rfl)
    { shape_pos := by decide
      cutA := by unfold CutFits; decide +kernel
      cutR := by unfold CutFits; decide +kernel
      totalA := by decide +kernel
      totalR := by decide +kernel
      total_lt := by decide
      cores_cover := by decide +kernel }

/-- A row of 2³¹ + 1 blocks of one element. -/
def wideTiling : ReduceOpTilingData where
  factorACntPerCore := 1
  factorATotalCnt := 1
  ubFactorA := 1
  factorRCntPerCore := 2 ^ 31 + 1
  factorRTotalCnt := 2 ^ 31 + 1
  ubFactorR := 1
  groupR := 1
  shape k := if k = 0 then 1 else 2 ^ 31 + 1

theorem wide_not_visitsOnce : ¬VisitsOnce (getSchLoopInfo1 11 10 1) wideTiling 1 := by
  have hkey : Declared (getSchLoopInfo1 11 10 1) := Declared.normal (show 2 ≤ 9 by decide)
    (show 1 ≤ 1 by decide) (by decide) (show 2 * 1 ≤ 2 by decide) rfl
  intro hvisits
  exact absurd (hvisits.rCount_le hkey.alternates
    { shape_pos := by decide
      cutA := by unfold CutFits; decide +kernel
      cutR := by unfold CutFits; decide +kernel
      totalA := by decide +kernel
      totalR := by decide +kernel
      total_lt := by decide
      cores_cover := by decide +kernel }) (by decide)

end Cover

end OpBase.Reduce
