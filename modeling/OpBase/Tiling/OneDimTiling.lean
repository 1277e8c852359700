import OpBase.Base.DataType
import OpBase.Tiling.Cuts

/-!
# Tiling of a single axis

`DoOneDimOpTiling` of `broadcast_tiling.h`, for a broadcasting operator whose axes have all
been merged into one. The unified buffer gives the length of a tile, the tiles are counted,
and blocks of them go to the cores. Where this takes less than half of the cores, a shorter
tile is tried, though not one of less than eight kilobytes, all buffers together.

> `oneDimTiling_covers_iff`: what the tiling ends with covers the axis, unless a sum leaves
> its type, or there are so many buffers that their share of eight kilobytes has not one cache
> line in it and so many cores that half of them have nothing to do.
-/

namespace OpBase.Tiling

open OpBase.Lib.Checked

def PER_CORE_MIN_UB_BYTE : ℤ := 8 * 1024
def HALF_CORE_NUM_DIVIDE : ℤ := 2
def CACHE_LINE : ℤ := 128

structure OneDimTilingData where
  ubFormer : ℤ
  ubTail : ℤ
  blockNum : ℤ
  blockFormer : ℤ
  blockTail : ℤ
  deriving DecidableEq

/-- The number of elements in what a buffer has of `size` bytes, in whole cache lines. -/
def lineElements (size dTypeSize : ℤ) : Except Fault ℤ := do
  let lines ← divide size CACHE_LINE
  let bytes ← int64 (lines * CACHE_LINE)
  divide bytes dTypeSize

/-- The field `ubFormer` is an `int32_t`. -/
def getOneDimUBFormer (aliveNum dTypeSize actualUbSize : ℤ) : Except Fault ℤ :=
  if aliveNum = 0 then .error .graphFailed
  else if dTypeSize = 0 then .error .graphFailed
  else do
    let ubFormerByte ← divide actualUbSize aliveNum
    let ubFormer ← lineElements ubFormerByte dTypeSize
    if asInt32 ubFormer = 0 then .error .graphFailed else .ok (asInt32 ubFormer)

/-- What the source computes twice from the length of a tile. `coreNum` is a `uint64_t`. -/
def splitOneDim (dimLength coreNum ubFormer : ℤ) : Except Fault OneDimTilingData := do
  let ubOuter ← ceilQuotient dimLength ubFormer
  let ubTail ← remainder dimLength ubFormer
  let ubTail := if ubTail = 0 then ubFormer else ubTail
  let blocks ← divide (uint64 (ubOuter + coreNum - 1)) coreNum
  let blockFormer := asInt64 blocks
  let blockTail ← remainder ubOuter blockFormer
  let blockTail := if blockTail = 0 then blockFormer else blockTail
  let blockNum ← ceilQuotient ubOuter blockFormer
  .ok ⟨ubFormer, ubTail, blockNum, blockFormer, blockTail⟩

/-- The shorter tile. -/
def halfCoresUBFormer (aliveNum dTypeSize dimLength coreNum ubFormer : ℤ) : Except Fault ℤ := do
  let twice ← int64 (dimLength * 2)
  let perCore ← divide (uint64 twice) coreNum
  let dimPerCore := asInt64 perCore
  let bytes ← int64 (dimPerCore * dTypeSize)
  let lines ← ceilQuotient bytes CACHE_LINE
  let aligned ← int64 (lines * CACHE_LINE)
  let alignDimPerCore ← divide aligned dTypeSize
  let ubFormer := if alignDimPerCore < ubFormer then alignDimPerCore else ubFormer
  let share ← divide PER_CORE_MIN_UB_BYTE aliveNum
  let lowestUbFormer ← lineElements share dTypeSize
  .ok (if ubFormer < lowestUbFormer then lowestUbFormer else ubFormer)

/-- `AdaptOneDimTilingData`. -/
def adaptOneDimTilingData (t : OneDimTilingData) : OneDimTilingData :=
  { t with ubFormer := asInt32 t.ubFormer, ubTail := asInt32 t.ubTail }

/-- `dims` is `tilingData.dims.back()`, and `ubFormer` the field. -/
def doOneDimFormerTiling (aliveNum dTypeSize coreNum ubFormer : ℤ) (dims : List ℤ) :
    Except Fault OneDimTilingData :=
  if aliveNum = 0 then .error .graphFailed
  else
    match dims with
    | [] => .error .graphFailed
    | dimLength :: _ =>
      if dimLength = 0 then .error .graphFailed
      else do
        let whole ← splitOneDim dimLength coreNum ubFormer
        if uint64 whole.blockNum < coreNum / HALF_CORE_NUM_DIVIDE then do
          let bytes ← int64 (ubFormer * dTypeSize)
          let bytes ← int64 (bytes * aliveNum)
          if PER_CORE_MIN_UB_BYTE < bytes then do
            let shorter ← halfCoresUBFormer aliveNum dTypeSize dimLength coreNum ubFormer
            let half ← splitOneDim dimLength coreNum shorter
            .ok (adaptOneDimTilingData half)
          else .ok (adaptOneDimTilingData whole)
        else .ok (adaptOneDimTilingData whole)

/-- `aliveNum` has the extra buffers in it, and the extra size is not in `actualUbSize`. -/
def doOneDimOpTiling (aliveNum dTypeSize actualUbSize coreNum : ℤ) (dims : List ℤ) :
    Except Fault OneDimTilingData := do
  let ubFormer ← getOneDimUBFormer aliveNum dTypeSize actualUbSize
  doOneDimFormerTiling aliveNum dTypeSize coreNum ubFormer dims

/-! ## One length of tiles -/

/-- The sums that are made for tiles of length `f` stay in their types. -/
def TilesFit (dimLength coreNum f : ℤ) : Prop :=
  dimLength + f < 2 ^ 63 ∧ pieces dimLength f + coreNum ≤ 2 ^ 64 ∧
    pieces dimLength f + pieces (pieces dimLength f) coreNum < 2 ^ 63

/-- What the tiling is for: tiles make up the axis, and blocks make up the tiles. -/
structure OneDimCovers (coreNum budget dimLength : ℤ) (t : OneDimTilingData) : Prop where
  tiles : ∃ ubOuter, Cut dimLength t.ubFormer ubOuter t.ubTail ∧
    Cut ubOuter t.blockFormer t.blockNum t.blockTail
  ubFormer_le : t.ubFormer ≤ budget
  blockNum_le : t.blockNum ≤ coreNum

section
variable {aliveNum dTypeSize actualUbSize coreNum dimLength f b : ℤ} {t : OneDimTilingData}

/-- The split covers the axis while its sums fit. -/
theorem splitOneDim_eq (hd : 0 < dimLength) (hcore : 1 ≤ coreNum) (hcore' : coreNum < 2 ^ 64)
    (hf : 0 < f) (hfit : TilesFit dimLength coreNum f) :
    ∃ t, splitOneDim dimLength coreNum f = .ok t ∧ t.ubFormer = f ∧
      t.blockNum = pieces (pieces dimLength f) (pieces (pieces dimLength f) coreNum) ∧
      OneDimCovers coreNum f dimLength t := by
  obtain ⟨hsum, hcores, hblocks⟩ := hfit
  have htiles := cut_pieces hd hf
  have hn := htiles.num_pos
  have hnd := pieces_le hd hf
  have hrem := htiles.tail_eq
  unfold splitOneDim
  rw [ceilQuotient_eq hd.le hf hsum, ok_bind, remainder_eq hd.le hf.ne', ok_bind]
  dsimp only
  rw [← hrem]
  generalize dimLength - (pieces dimLength f - 1) * f = tail at *
  generalize pieces dimLength f = n at *
  -- the blocks
  have hB := pieces_pos hn hcore
  have hcut := cut_pieces hn hB
  have hblockRem := hcut.tail_eq
  have hquot : divide (uint64 (n + coreNum - 1)) coreNum = .ok (pieces n coreNum) := by
    rw [uint64_eq (by omega) (by omega), divide_eq (by omega) (by omega)]
    rfl
  rw [hquot, ok_bind, asInt64_eq hB.le (by omega), remainder_eq hn.le hB.ne', ok_bind,
    ceilQuotient_eq hn.le hB hblocks, ok_bind, ← hblockRem]
  exact ⟨_, rfl, rfl, rfl, ⟨⟨n, htiles, hcut⟩, le_refl f, pieces_pieces_le hn hcore⟩⟩

theorem splitOneDim_ubFormer (h : splitOneDim dimLength coreNum f = .ok t) : t.ubFormer = f := by
  unfold splitOneDim at h
  obtain ⟨ubOuter, -, h⟩ := bind_eq_ok.mp h
  obtain ⟨ubTail, -, h⟩ := bind_eq_ok.mp h
  obtain ⟨blocks, -, h⟩ := bind_eq_ok.mp h
  obtain ⟨blockTail, -, h⟩ := bind_eq_ok.mp h
  obtain ⟨blockNum, -, ⟨⟩⟩ := bind_eq_ok.mp h
  rfl

/-- The split succeeds only while its sums fit. -/
theorem splitOneDim_fits (hd : 0 < dimLength) (hcore : 1 ≤ coreNum)
    (hcore' : coreNum < 2 ^ 64) (hf : 0 ≤ f) (h : splitOneDim dimLength coreNum f = .ok t) :
    0 < f ∧ TilesFit dimLength coreNum f := by
  unfold splitOneDim at h
  obtain ⟨n, hn, h⟩ := bind_eq_ok.mp h
  obtain ⟨hsum, hf0⟩ := ceilQuotient_lt hn
  have hf : 0 < f := lt_of_le_of_ne hf hf0.symm
  rw [ceilQuotient_eq hd.le hf hsum] at hn
  cases hn
  have hn := pieces_pos hd hf
  have hnd := pieces_le hd hf
  unfold TilesFit
  generalize pieces dimLength f = n at *
  obtain ⟨tail, -, h⟩ := bind_eq_ok.mp h
  obtain ⟨blocks, hblocks, h⟩ := bind_eq_ok.mp h
  obtain ⟨blockTail, hblockTail, h⟩ := bind_eq_ok.mp h
  obtain ⟨blockNum, hblockNum, -⟩ := bind_eq_ok.mp h
  have hB0 := remainder_ne_zero hblockTail
  have huint : 0 ≤ uint64 (n + coreNum - 1) := Int.emod_nonneg _ (by decide)
  rw [divide_eq huint (by omega)] at hblocks
  cases hblocks
  -- else the sum wraps below the number of cores, and no block is left
  have hcores : n + coreNum ≤ 2 ^ 64 := by
    by_contra hwrap
    have hlt : uint64 (n + coreNum - 1) < coreNum := by
      unfold uint64
      omega
    rw [Int.ediv_eq_zero_of_lt huint hlt] at hB0
    exact hB0 rfl
  have hBn := pieces_le hn hcore
  have hB := pieces_pos hn hcore
  rw [uint64_eq (by omega) (by omega)] at hblockNum
  rw [show (n + coreNum - 1) / coreNum = pieces n coreNum from rfl,
    asInt64_eq hB.le (by omega)] at hblockNum
  exact ⟨hf, hsum, hcores, (ceilQuotient_lt hblockNum).1⟩

/-! ## The length of a tile -/

/-- The elements of a buffer's share of the unified buffer, as the field holds them. -/
def ubBudget (aliveNum dTypeSize actualUbSize : ℤ) : ℤ :=
  asInt32 (actualUbSize / aliveNum / 128 * 128 / dTypeSize)

/-- What `halfCoresUBFormer` computes. -/
def halfCoresLength (aliveNum dTypeSize coreNum b dimLength : ℤ) : ℤ :=
  max (min b (pieces (dimLength * 2 / coreNum * dTypeSize) 128 * 128 / dTypeSize))
    (8192 / aliveNum / 128 * 128 / dTypeSize)

theorem lineElements_eq {size : ℤ} (hsize : 0 ≤ size) (hsize' : size < 2 ^ 63)
    (htype : 0 < dTypeSize) : lineElements size dTypeSize = .ok (size / 128 * 128 / dTypeSize) := by
  unfold lineElements CACHE_LINE
  rw [divide_eq hsize (by decide), ok_bind, int64_eq (by omega) (by omega), ok_bind,
    divide_eq (by omega) htype.ne']

theorem getOneDimUBFormer_eq (halive : 0 < aliveNum) (htype : 0 < dTypeSize)
    (hub : 0 < actualUbSize) (hub' : actualUbSize < 2 ^ 63) :
    getOneDimUBFormer aliveNum dTypeSize actualUbSize =
      if ubBudget aliveNum dTypeSize actualUbSize = 0 then .error .graphFailed
      else .ok (ubBudget aliveNum dTypeSize actualUbSize) := by
  have hshare : 0 ≤ actualUbSize / aliveNum := Int.ediv_nonneg hub.le halive.le
  have hshare' : actualUbSize / aliveNum ≤ actualUbSize := Int.ediv_le_self _ hub.le
  unfold getOneDimUBFormer
  rw [if_neg halive.ne', if_neg htype.ne', divide_eq hub.le halive.ne', ok_bind,
    lineElements_eq hshare (by omega) htype, ok_bind]
  rfl

theorem ubBudget_fits (halive : 0 < aliveNum) (htype : 0 < dTypeSize) (hub : 0 < actualUbSize) :
    ubBudget aliveNum dTypeSize actualUbSize < 2 ^ 31 ∧
      ubBudget aliveNum dTypeSize actualUbSize * dTypeSize * aliveNum ≤ actualUbSize := by
  have hshare : 0 ≤ actualUbSize / aliveNum := Int.ediv_nonneg hub.le halive.le
  have hlines : actualUbSize / aliveNum / 128 * 128 ≤ actualUbSize / aliveNum := by omega
  have hq : 0 ≤ actualUbSize / aliveNum / 128 * 128 / dTypeSize :=
    Int.ediv_nonneg (by omega) htype.le
  have hle : ubBudget aliveNum dTypeSize actualUbSize ≤
      actualUbSize / aliveNum / 128 * 128 / dTypeSize := by
    unfold ubBudget asInt32
    omega
  refine ⟨by unfold ubBudget asInt32; omega, ?_⟩
  calc ubBudget aliveNum dTypeSize actualUbSize * dTypeSize * aliveNum
      ≤ actualUbSize / aliveNum / 128 * 128 / dTypeSize * dTypeSize * aliveNum := by
        refine mul_le_mul_of_nonneg_right (mul_le_mul_of_nonneg_right hle htype.le) halive.le
    _ ≤ actualUbSize / aliveNum * aliveNum :=
        mul_le_mul_of_nonneg_right ((Int.ediv_mul_le _ htype.ne').trans hlines) halive.le
    _ ≤ actualUbSize := Int.ediv_mul_le _ halive.ne'

theorem pieces_pieces_lt_iff {n c : ℤ} (hn : 0 < n) (hc : 1 ≤ c) :
    pieces n (pieces n c) < c / 2 ↔ n < c / 2 := by
  have hB := pieces_pos hn hc
  have hone : n ≤ c → pieces n c = 1 := fun hle =>
    le_antisymm ((pieces_le_iff hc).mpr (by omega)) hB
  constructor
  · intro h
    have hle : n ≤ c := by
      by_contra hlt
      have hB' : pieces n c * c ≤ n + c - 1 := Int.ediv_mul_le _ (by omega)
      have hcover : n ≤ pieces n (pieces n c) * pieces n c := (pieces_le_iff hB).mp le_rfl
      have hpos := pieces_pos hn hB
      generalize pieces n (pieces n c) = k at *
      generalize pieces n c = q at *
      have h1 : n * c ≤ k * (n + c - 1) := by nlinarith
      have h2 : k * (n + c - 1) ≤ k * (2 * n) := by nlinarith
      have h3 : 2 * k < c := by omega
      nlinarith
    rw [hone hle] at h
    unfold pieces at h
    omega
  · intro h
    rw [hone (by omega)]
    unfold pieces
    omega

theorem dimPerCore_lt (hcore : 1 ≤ coreNum) (hb : 0 < b)
    (hfew : pieces dimLength b < coreNum / 2) : dimLength * 2 / coreNum < b := by
  have hcover : dimLength ≤ pieces dimLength b * b := (pieces_le_iff hb).mp le_rfl
  have htwice : pieces dimLength b * 2 < coreNum := by omega
  refine Int.ediv_lt_of_lt_mul (by omega) ?_
  calc dimLength * 2 ≤ pieces dimLength b * 2 * b := by linarith
    _ < coreNum * b := mul_lt_mul_of_pos_right htwice hb
    _ = b * coreNum := mul_comm _ _

/-! ## The whole tiling -/

theorem asInt32_eq {z : ℤ} (h0 : 0 ≤ z) (h : z < 2 ^ 31) : asInt32 z = z := by
  unfold asInt32
  omega

theorem adaptOneDimTilingData_eq (hb' : b < 2 ^ 31) (h : OneDimCovers coreNum b dimLength t) :
    adaptOneDimTilingData t = t := by
  obtain ⟨ubOuter, hcut, -⟩ := h.tiles
  have htail := hcut.tail_pos
  have hle := hcut.tail_le
  have hbudget := h.ubFormer_le
  unfold adaptOneDimTilingData
  rw [asInt32_eq (by omega) (by omega), asInt32_eq htail.le (by omega)]

/-- The shorter tiles are tried: less than half of the cores have blocks, and the buffers have
more than eight kilobytes. -/
def TriesHalf (aliveNum dTypeSize coreNum b dimLength : ℤ) : Prop :=
  pieces dimLength b < coreNum / 2 ∧ 8192 < b * dTypeSize * aliveNum

instance (aliveNum dTypeSize coreNum b dimLength : ℤ) :
    Decidable (TriesHalf aliveNum dTypeSize coreNum b dimLength) :=
  inferInstanceAs (Decidable (_ ∧ _))

/-- They are tiles, and the sums that are made for them stay in their types. -/
def HalfFits (aliveNum dTypeSize coreNum b dimLength : ℤ) : Prop :=
  dimLength * 2 < 2 ^ 63 ∧
    (coreNum ≤ dimLength * 2 ∨ dTypeSize ≤ 8192 / aliveNum / 128 * 128) ∧
    pieces dimLength (halfCoresLength aliveNum dTypeSize coreNum b dimLength) + coreNum ≤ 2 ^ 64

section

variable (hb : 0 < b) (hcore : 1 ≤ coreNum) (hd : 0 < dimLength) (halive : 0 < aliveNum)
  (htype : 0 < dTypeSize)
include hb hcore hd halive htype

/-- The shorter tile, where twice the axis fits. -/
theorem halfCoresUBFormer_eq (htype' : dTypeSize < 2 ^ 32)
    (hb' : b < 2 ^ 31) (hfew : pieces dimLength b < coreNum / 2) (htwice : dimLength * 2 < 2 ^ 63) :
    halfCoresUBFormer aliveNum dTypeSize dimLength coreNum b =
      .ok (halfCoresLength aliveNum dTypeSize coreNum b dimLength) := by
  have hper := dimPerCore_lt hcore hb hfew
  have hper0 : 0 ≤ dimLength * 2 / coreNum := Int.ediv_nonneg (by omega) (by omega)
  have hbytes : 0 ≤ dimLength * 2 / coreNum * dTypeSize := mul_nonneg hper0 htype.le
  have hbytes' : dimLength * 2 / coreNum * dTypeSize ≤ (2 ^ 31 - 2) * dTypeSize :=
    mul_le_mul_of_nonneg_right (by omega) htype.le
  have hshare : 0 ≤ 8192 / aliveNum := Int.ediv_nonneg (by decide) halive.le
  have hshare' : 8192 / aliveNum ≤ 8192 := Int.ediv_le_self _ (by decide)
  unfold halfCoresUBFormer halfCoresLength
  rw [int64_eq (by omega) htwice, ok_bind, uint64_eq (by omega) (by omega),
    divide_eq (by omega) (by omega), ok_bind, asInt64_eq hper0 (by omega)]
  dsimp only
  generalize dimLength * 2 / coreNum * dTypeSize = bytes at *
  have hlines : 0 ≤ pieces bytes 128 ∧ pieces bytes 128 * 128 ≤ bytes + 127 := by
    unfold pieces
    omega
  have hlow : lineElements (8192 / aliveNum) dTypeSize =
      .ok (8192 / aliveNum / 128 * 128 / dTypeSize) := lineElements_eq hshare (by omega) htype
  rw [int64_eq hbytes (by omega), ok_bind, show CACHE_LINE = 128 from rfl,
    ceilQuotient_eq hbytes (by decide) (by omega), ok_bind, int64_eq (by omega) (by omega), ok_bind,
    divide_eq (by omega) htype.ne', ok_bind, show PER_CORE_MIN_UB_BYTE = 8192 from rfl,
    divide_eq (by decide) halive.ne', ok_bind, hlow, ok_bind]
  refine congrArg Except.ok ?_
  rw [max_def, min_def]
  split_ifs <;> omega

/-- The shorter tile is not longer than the other, and is a tile just if the half of the cores
have something to do or a share of eight kilobytes has a cache line in it. Then there are not
more tiles than cores. -/
theorem halfCoresLength_spec (hfew : pieces dimLength b < coreNum / 2)
    (hbytes : 8192 < b * dTypeSize * aliveNum) {s : ℤ}
    (hs : halfCoresLength aliveNum dTypeSize coreNum b dimLength = s) :
    s ≤ b ∧ 0 ≤ s ∧
      (0 < s ↔ coreNum ≤ dimLength * 2 ∨ dTypeSize ≤ 8192 / aliveNum / 128 * 128) ∧
      (0 < s → pieces dimLength s ≤ coreNum) := by
  have hper := dimPerCore_lt hcore hb hfew
  have hper0 : 0 ≤ dimLength * 2 / coreNum := Int.ediv_nonneg (by omega) (by omega)
  have hpos : 0 < dimLength * 2 / coreNum ↔ coreNum ≤ dimLength * 2 := by
    rw [← Int.add_one_le_iff, zero_add, Int.le_ediv_iff_mul_le (by omega), one_mul]
  have hnext : dimLength * 2 < (dimLength * 2 / coreNum + 1) * coreNum :=
    Int.lt_ediv_add_one_mul_self _ (by omega)
  unfold halfCoresLength at hs
  generalize dimLength * 2 / coreNum = per at *
  -- whole cache lines
  have hal : per ≤ pieces (per * dTypeSize) 128 * 128 / dTypeSize := by
    refine Int.le_ediv_of_mul_le htype ?_
    unfold pieces
    omega
  have hal0 : per = 0 → pieces (per * dTypeSize) 128 * 128 / dTypeSize = 0 := by
    intro h
    rw [h, zero_mul]
    exact Int.zero_ediv _
  generalize pieces (per * dTypeSize) 128 * 128 / dTypeSize = al at *
  -- the share of eight kilobytes
  have hlines : 0 ≤ 8192 / aliveNum / 128 * 128 ∧
      8192 / aliveNum / 128 * 128 * aliveNum ≤ 8192 := by
    have hshare : 0 ≤ 8192 / aliveNum := Int.ediv_nonneg (by decide) halive.le
    have hmul : 8192 / aliveNum * aliveNum ≤ 8192 := Int.ediv_mul_le _ halive.ne'
    have hle : 8192 / aliveNum / 128 * 128 ≤ 8192 / aliveNum := by omega
    exact ⟨by omega, (mul_le_mul_of_nonneg_right hle halive.le).trans hmul⟩
  have hlow : 8192 / aliveNum / 128 * 128 / dTypeSize < b := by
    refine Int.ediv_lt_of_lt_mul htype ?_
    by_contra h
    have := mul_le_mul_of_nonneg_right (not_lt.mp h) halive.le
    omega
  have hlow0 : 0 ≤ 8192 / aliveNum / 128 * 128 / dTypeSize := Int.ediv_nonneg hlines.1 htype.le
  have hlowpos : 0 < 8192 / aliveNum / 128 * 128 / dTypeSize ↔
      dTypeSize ≤ 8192 / aliveNum / 128 * 128 := by
    rw [← Int.add_one_le_iff, zero_add, Int.le_ediv_iff_mul_le htype, one_mul]
  generalize 8192 / aliveNum / 128 * 128 / dTypeSize = low at *
  have hcases : 0 < s ↔ 0 < per ∨ 0 < low := by omega
  refine ⟨by omega, by omega, by rw [hcases, hpos, hlowpos], fun h => ?_⟩
  rw [pieces_le_iff h]
  rcases hper0.lt_or_eq with h1 | h0
  · have hps : per ≤ s := by omega
    nlinarith
  · rw [← h0] at hnext
    nlinarith

/-- What is tried: the whole tile, and a shorter one if few cores would be used. -/
theorem doOneDimFormerTiling_eq (hcore' : coreNum < 2 ^ 64)
    (hbytes : b * dTypeSize * aliveNum < 2 ^ 63) (hfit : TilesFit dimLength coreNum b) :
    ∃ whole, OneDimCovers coreNum b dimLength whole ∧
      doOneDimFormerTiling aliveNum dTypeSize coreNum b [dimLength] =
        if TriesHalf aliveNum dTypeSize coreNum b dimLength then
          halfCoresUBFormer aliveNum dTypeSize dimLength coreNum b >>= fun shorter =>
            splitOneDim dimLength coreNum shorter >>= fun half => .ok (adaptOneDimTilingData half)
        else .ok (adaptOneDimTilingData whole) := by
  obtain ⟨whole, hwhole, -, hnum, hcovers⟩ := splitOneDim_eq hd hcore hcore' hb hfit
  refine ⟨whole, hcovers, ?_⟩
  obtain ⟨ubOuter, -, hblocks⟩ := hcovers.tiles
  have hnum0 := hblocks.num_pos
  have hnumc := hcovers.blockNum_le
  have hbytes0 : 0 ≤ b * dTypeSize := (mul_pos hb htype).le
  have hbytes1 : b * dTypeSize ≤ b * dTypeSize * aliveNum := le_mul_of_one_le_right hbytes0 halive
  have hfew : uint64 whole.blockNum < coreNum / HALF_CORE_NUM_DIVIDE ↔
      pieces dimLength b < coreNum / 2 := by
    rw [uint64_eq hnum0.le (by omega), hnum]
    exact pieces_pieces_lt_iff (pieces_pos hd hb) hcore
  unfold doOneDimFormerTiling
  rw [if_neg halive.ne']
  dsimp only
  rw [if_neg hd.ne', hwhole, ok_bind, if_congr hfew rfl rfl, int64_eq hbytes0 (by omega), ok_bind,
    int64_eq (hbytes0.trans hbytes1) hbytes, ok_bind]
  by_cases h1 : pieces dimLength b < coreNum / 2
  · by_cases h2 : 8192 < b * dTypeSize * aliveNum
    · have htry : TriesHalf aliveNum dTypeSize coreNum b dimLength := ⟨h1, h2⟩
      rw [if_pos h1, if_pos htry]
      exact if_pos h2
    · have htry : ¬ TriesHalf aliveNum dTypeSize coreNum b dimLength := fun h => h2 h.2
      rw [if_pos h1, if_neg htry]
      exact if_neg h2
  · have htry : ¬ TriesHalf aliveNum dTypeSize coreNum b dimLength := fun h => h1 h.1
    rw [if_neg h1, if_neg htry]

/-- The tiles cover the axis just when the sums of what is tried fit. -/
theorem doOneDimFormerTiling_covers_iff
    (htype' : dTypeSize < 2 ^ 32) (hcore' : coreNum < 2 ^ 64) (hb' : b < 2 ^ 31)
    (hbytes : b * dTypeSize * aliveNum < 2 ^ 63) :
    (∃ t, doOneDimFormerTiling aliveNum dTypeSize coreNum b [dimLength] = .ok t ∧
      OneDimCovers coreNum b dimLength t) ↔
      TilesFit dimLength coreNum b ∧ (TriesHalf aliveNum dTypeSize coreNum b dimLength →
        HalfFits aliveNum dTypeSize coreNum b dimLength) := by
  constructor
  · intro ⟨t, h, _⟩
    -- the whole length is split first
    have hfit : TilesFit dimLength coreNum b := by
      unfold doOneDimFormerTiling at h
      rw [if_neg halive.ne'] at h
      dsimp only at h
      rw [if_neg hd.ne'] at h
      obtain ⟨whole, hwhole, -⟩ := bind_eq_ok.mp h
      exact (splitOneDim_fits hd hcore hcore' hb.le hwhole).2
    refine ⟨hfit, fun htry => ?_⟩
    obtain ⟨whole, -, hrun⟩ :=
      doOneDimFormerTiling_eq hb hcore hd halive htype hcore' hbytes hfit
    rw [hrun, if_pos htry] at h
    obtain ⟨s, hs, h⟩ := bind_eq_ok.mp h
    -- half the cores are tried only for lengths that can be doubled
    have htwice : dimLength * 2 < 2 ^ 63 := by
      unfold halfCoresUBFormer at hs
      obtain ⟨_, h2, -⟩ := bind_eq_ok.mp hs
      exact int64_lt h2
    rw [halfCoresUBFormer_eq hb hcore hd halive htype htype' hb' htry.1 htwice] at hs
    cases hs
    obtain ⟨half, hhalf, -⟩ := bind_eq_ok.mp h
    obtain ⟨-, hs0, hspos, -⟩ := halfCoresLength_spec hb hcore hd halive htype htry.1 htry.2 rfl
    obtain ⟨hpos, hfits⟩ := splitOneDim_fits hd hcore hcore' hs0 hhalf
    exact ⟨htwice, hspos.mp hpos, hfits.2.1⟩
  · intro ⟨hfit, hhalf⟩
    obtain ⟨whole, hcovers, hrun⟩ :=
      doOneDimFormerTiling_eq hb hcore hd halive htype hcore' hbytes hfit
    rw [hrun]
    by_cases htry : TriesHalf aliveNum dTypeSize coreNum b dimLength
    · obtain ⟨htwice, hnonzero, hsum⟩ := hhalf htry
      obtain ⟨hsb, -, hspos, hscores⟩ :=
        halfCoresLength_spec hb hcore hd halive htype htry.1 htry.2 rfl
      rw [if_pos htry, halfCoresUBFormer_eq hb hcore hd halive htype htype' hb' htry.1 htwice,
        ok_bind]
      generalize halfCoresLength aliveNum dTypeSize coreNum b dimLength = s at *
      have hs := hspos.mpr hnonzero
      -- with that many elements each, one round of the cores is enough
      have hone : pieces (pieces dimLength s) coreNum ≤ 1 := by
        rw [pieces_le_iff hcore, one_mul]
        exact hscores hs
      have hsd := pieces_le hd hs
      have hshort := hfit.1
      obtain ⟨half, hsplit, -, -, hc⟩ :=
        splitOneDim_eq hd hcore hcore' hs ⟨by omega, hsum, by omega⟩
      have hcb : OneDimCovers coreNum b dimLength half :=
        ⟨hc.tiles, hc.ubFormer_le.trans hsb, hc.blockNum_le⟩
      rw [hsplit, ok_bind, adaptOneDimTilingData_eq hb' hcb]
      exact ⟨half, rfl, hcb⟩
    · rw [if_neg htry, adaptOneDimTilingData_eq hb' hcovers]
      exact ⟨whole, rfl, hcovers⟩

end

theorem doOneDimFormerTiling_neg (halive : 0 < aliveNum) (htype : 0 < dTypeSize)
    (hb : b < 0) (hb' : -2 ^ 31 ≤ b)
    (h : doOneDimFormerTiling aliveNum dTypeSize coreNum b [dimLength] = .ok t) :
    t.ubFormer < 0 := by
  have hsame : asInt32 b = b := by
    unfold asInt32
    omega
  unfold doOneDimFormerTiling at h
  rw [if_neg halive.ne'] at h
  dsimp only at h
  split at h
  · cases h
  obtain ⟨whole, hw, h⟩ := bind_eq_ok.mp h
  have hfield : (adaptOneDimTilingData whole).ubFormer = b := by
    rw [adaptOneDimTilingData, splitOneDim_ubFormer hw, hsame]
  split at h
  · obtain ⟨bytes, hbytes, h⟩ := bind_eq_ok.mp h
    obtain ⟨bytes', hbytes', h⟩ := bind_eq_ok.mp h
    split at h
    next hmany =>
      -- the buffers would have a negative size
      exfalso
      obtain rfl := int64_eq_ok hbytes
      obtain rfl := int64_eq_ok hbytes'
      have h1 : b * dTypeSize < 0 := mul_neg_of_neg_of_pos hb htype
      have h2 : b * dTypeSize * aliveNum < 0 := mul_neg_of_neg_of_pos h1 halive
      unfold PER_CORE_MIN_UB_BYTE at hmany
      omega
    next =>
      cases h
      omega
  · cases h
    omega

theorem int64_ne_graphFailed (z : ℤ) : int64 z ≠ .error .graphFailed := by
  unfold int64
  split
  · nofun
  · nofun

theorem divide_ne_graphFailed (x y : ℤ) : divide x y ≠ .error .graphFailed := by
  unfold divide
  split
  · nofun
  · nofun

theorem remainder_ne_graphFailed (x y : ℤ) : remainder x y ≠ .error .graphFailed := by
  unfold remainder
  split
  · nofun
  · nofun

theorem ceilQuotient_ne_graphFailed (x y : ℤ) : ceilQuotient x y ≠ .error .graphFailed :=
  bind_ne_error (int64_ne_graphFailed _) fun _ =>
    bind_ne_error (int64_ne_graphFailed _) fun _ =>
      bind_ne_error (divide_ne_graphFailed _ _) fun _ => int64_ne_graphFailed _

theorem splitOneDim_ne_graphFailed (x y z : ℤ) : splitOneDim x y z ≠ .error .graphFailed :=
  bind_ne_error (ceilQuotient_ne_graphFailed _ _) fun _ =>
    bind_ne_error (remainder_ne_graphFailed _ _) fun _ =>
      bind_ne_error (divide_ne_graphFailed _ _) fun _ =>
        bind_ne_error (remainder_ne_graphFailed _ _) fun _ =>
          bind_ne_error (ceilQuotient_ne_graphFailed _ _) fun _ => nofun

theorem lineElements_ne_graphFailed (x y : ℤ) : lineElements x y ≠ .error .graphFailed :=
  bind_ne_error (divide_ne_graphFailed _ _) fun _ =>
    bind_ne_error (int64_ne_graphFailed _) fun _ => divide_ne_graphFailed _ _

theorem halfCoresUBFormer_ne_graphFailed (x y z u v : ℤ) :
    halfCoresUBFormer x y z u v ≠ .error .graphFailed :=
  bind_ne_error (int64_ne_graphFailed _) fun _ =>
    bind_ne_error (divide_ne_graphFailed _ _) fun _ =>
      bind_ne_error (int64_ne_graphFailed _) fun _ =>
        bind_ne_error (ceilQuotient_ne_graphFailed _ _) fun _ =>
          bind_ne_error (int64_ne_graphFailed _) fun _ =>
            bind_ne_error (divide_ne_graphFailed _ _) fun _ =>
              bind_ne_error (divide_ne_graphFailed _ _) fun _ =>
                bind_ne_error (lineElements_ne_graphFailed _ _) fun _ => nofun

theorem doOneDimFormerTiling_ne_graphFailed (halive : aliveNum ≠ 0) (hd : dimLength ≠ 0) :
    doOneDimFormerTiling aliveNum dTypeSize coreNum b [dimLength] ≠ .error .graphFailed := by
  unfold doOneDimFormerTiling
  rw [if_neg halive]
  dsimp only
  rw [if_neg hd]
  refine bind_ne_error (splitOneDim_ne_graphFailed _ _ _) fun whole => ?_
  split
  · refine bind_ne_error (int64_ne_graphFailed _) fun bytes => ?_
    refine bind_ne_error (int64_ne_graphFailed _) fun bytes' => ?_
    split
    · exact bind_ne_error (halfCoresUBFormer_ne_graphFailed _ _ _ _ _) fun _ =>
        bind_ne_error (splitOneDim_ne_graphFailed _ _ _) fun _ => nofun
    · nofun
  · nofun

/-- The tiling is refused, or ends with tiles and blocks that cover the axis. -/
def OneDimTiled (aliveNum dTypeSize actualUbSize coreNum dimLength : ℤ) : Prop :=
  doOneDimOpTiling aliveNum dTypeSize actualUbSize coreNum [dimLength] = .error .graphFailed ∨
    ∃ t, doOneDimOpTiling aliveNum dTypeSize actualUbSize coreNum [dimLength] = .ok t ∧
      OneDimCovers coreNum (ubBudget aliveNum dTypeSize actualUbSize) dimLength t

/-- There is no room for a tile in the buffers' shares, or there is, and the sums fit, also the
ones for shorter tiles if these are tried. -/
def OneDimFits (aliveNum dTypeSize actualUbSize coreNum dimLength : ℤ) : Prop :=
  aliveNum = 0 ∨ dTypeSize = 0 ∨ ubBudget aliveNum dTypeSize actualUbSize = 0 ∨
    0 < ubBudget aliveNum dTypeSize actualUbSize ∧
      TilesFit dimLength coreNum (ubBudget aliveNum dTypeSize actualUbSize) ∧
      (TriesHalf aliveNum dTypeSize coreNum (ubBudget aliveNum dTypeSize actualUbSize) dimLength →
        HalfFits aliveNum dTypeSize coreNum (ubBudget aliveNum dTypeSize actualUbSize) dimLength)

/-- The tiles cover the axis just when its sizes fit the integers that the tiling computes with. -/
theorem oneDimTiling_covers_iff (halive : 0 ≤ aliveNum) (htype : 0 ≤ dTypeSize)
    (htype' : dTypeSize < 2 ^ 32) (hub : 0 < actualUbSize) (hub' : actualUbSize < 2 ^ 63)
    (hcore : 1 ≤ coreNum) (hcore' : coreNum < 2 ^ 64) (hd : 1 ≤ dimLength) :
    OneDimTiled aliveNum dTypeSize actualUbSize coreNum dimLength ↔
      OneDimFits aliveNum dTypeSize actualUbSize coreNum dimLength := by
  unfold OneDimTiled OneDimFits doOneDimOpTiling
  rcases halive.eq_or_lt with h0 | halive
  · subst h0
    exact iff_of_true (.inl rfl) (.inl rfl)
  rcases htype.eq_or_lt with h0 | htype
  · subst h0
    refine iff_of_true (.inl ?_) (.inr (.inl rfl))
    unfold getOneDimUBFormer
    rw [if_neg halive.ne', if_pos rfl]
    rfl
  obtain ⟨hlt, hbytes⟩ := ubBudget_fits halive htype hub
  have hge : -2 ^ 31 ≤ ubBudget aliveNum dTypeSize actualUbSize := by
    unfold ubBudget asInt32
    omega
  rw [getOneDimUBFormer_eq halive htype hub hub', or_iff_right halive.ne', or_iff_right htype.ne']
  generalize ubBudget aliveNum dTypeSize actualUbSize = b at *
  by_cases hb0 : b = 0
  · rw [if_pos hb0]
    exact iff_of_true (.inl rfl) (.inl hb0)
  rw [if_neg hb0, ok_bind, or_iff_right (doOneDimFormerTiling_ne_graphFailed halive.ne' (by omega)),
    or_iff_right hb0]
  rcases lt_or_gt_of_ne hb0 with hneg | hpos
  · refine iff_of_false ?_ fun h => lt_asymm h.1 hneg
    -- a negative length cuts nothing
    intro ⟨t, h, hc⟩
    have hfield := doOneDimFormerTiling_neg halive htype hneg hge h
    obtain ⟨ubOuter, hcut, -⟩ := hc.tiles
    have h1 := hcut.tail_pos
    have h2 := hcut.tail_le
    omega
  · rw [and_iff_right hpos]
    exact doOneDimFormerTiling_covers_iff hpos hcore hd halive htype htype' hcore' hlt
      (hbytes.trans_lt hub')

example : doOneDimOpTiling 4 4 196608 64 [1000000] = .ok ⟨12288, 4672, 41, 2, 2⟩ := by rfl

/-- A million elements of four bytes on 64 cores. -/
theorem oneDimTiling_covers_million : OneDimTiled 4 4 196608 64 1000000 := by
  refine (oneDimTiling_covers_iff (by decide) (by decide) (by decide) (by decide) (by decide)
    (by decide) (by decide) (by decide)).mpr (.inr (.inr (.inr ⟨by decide, ?_, fun h => ?_⟩)))
  · unfold TilesFit
    decide
  · exact absurd h (by decide)

/-- With 65 buffers a share of eight kilobytes is less than a cache line, and one element is
nothing for each of 32 cores: the length of the tiles becomes zero, and is divided by. -/
theorem oneDimTiling_divides_by_zero : ¬ OneDimTiled 65 4 196608 64 1 := by
  have hrun : doOneDimOpTiling 65 4 196608 64 [1] = .error .undefined := rfl
  intro h
  unfold OneDimTiled at h
  rw [hrun] at h
  rcases h with h | ⟨t, h, -⟩
  · cases h
  · cases h

end

end OpBase.Tiling
