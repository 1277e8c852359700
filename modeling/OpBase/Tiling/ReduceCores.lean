import OpBase.Base.DataType
import OpBase.Tiling.Cuts

/-!
# The cores of a reduction

`SetTilingData` of `reduce_tiling.cpp`. The tiles of a reduction make up a grid, `outerA` of
them along the kept axes and `outerR` along the reduced ones, and it has to be dealt out to the
vector cores. So many cores are taken that they get the same number of tiles, as nearly as it
goes; where that is more than there are rows, the number is rounded to a multiple of the rows,
up if the cores allow it and down if not, and a row is shared by several cores.

The core number is a field of 64 bits, the number of blocks handed to the runtime has 32.

> `setTilingData_covers_iff`: each tile is worked on by exactly one core, and there are not more
> of them than the device has, unless the cores are so many that 32 bits do not hold their number.
-/

namespace OpBase.Tiling

/-! ## The divisions of `math_util.h`, for unsigned types -/

def ceilDiv (x y : ℤ) : ℤ :=
  if y ≠ 0 ∧ x ≠ 0 then if x % y ≠ 0 then x / y + 1 else x / y else x

/-- Saturates where the multiple does not fit. -/
def ceilAlign (x align : ℤ) : ℤ :=
  if align = 0 then 0
  else if ceilDiv x align > (2 ^ 64 - 1) / align then 2 ^ 64 - 1
  else ceilDiv x align * align

def floorAlign (x align : ℤ) : ℤ := if align = 0 then 0 else x / align * align

/-! ## The split -/

structure ReduceTilingUnit where
  idx : ℤ
  outer : ℤ
  step : ℤ

structure CacheLineBlock where
  axis : ℤ
  cacheLineStep : ℤ

/-- The members of the class that `SetTilingData` reads. -/
structure ReduceOpTiling where
  unitA : ReduceTilingUnit
  unitR : ReduceTilingUnit
  cBlock : CacheLineBlock
  basicBlock : ℤ
  resultBlock : ℤ
  vectorCoreNum : ℤ

/-- The fields of the tiling data that do not depend on the shape, and the block number that
goes to the context. -/
structure ReduceOpTilingData where
  factorACntPerCore : ℤ
  factorATotalCnt : ℤ
  ubFactorA : ℤ
  factorRCntPerCore : ℤ
  factorRTotalCnt : ℤ
  ubFactorR : ℤ
  groupR : ℤ
  basicBlock : ℤ
  resultBlock : ℤ
  coreNum : ℤ
  realCore : ℤ

/-- `factorA` and `factorR`: the step is in cache lines on the axis that was cut for them. -/
def ubFactor (unit : ReduceTilingUnit) (cBlock : CacheLineBlock) : ℤ :=
  if unit.idx = cBlock.axis then uint64 (unit.step * cBlock.cacheLineStep) else unit.step

/-- The number of cores, before it is known how many of them work on one row. -/
def blockDim (outerA outerR vectorCoreNum : ℤ) : ℤ :=
  let perCoreNum := ceilDiv (uint64 (outerA * outerR)) vectorCoreNum
  let blockDim := ceilDiv (uint64 (outerA * outerR)) perCoreNum
  if outerA < blockDim then
    let tmpBlockDim := ceilAlign blockDim outerA
    if tmpBlockDim ≤ vectorCoreNum then tmpBlockDim else floorAlign blockDim outerA
  else blockDim

def setTilingData (self : ReduceOpTiling) : ReduceOpTilingData :=
  let blockDim := blockDim self.unitA.outer self.unitR.outer self.vectorCoreNum
  let factorACntPerCore := ceilDiv self.unitA.outer blockDim
  let factorRCntPerCore := ceilDiv self.unitR.outer (ceilDiv blockDim self.unitA.outer)
  { factorACntPerCore
    factorATotalCnt := self.unitA.outer
    ubFactorA := ubFactor self.unitA self.cBlock
    factorRCntPerCore
    factorRTotalCnt := self.unitR.outer
    ubFactorR := ubFactor self.unitR self.cBlock
    groupR := ceilDiv self.unitR.outer factorRCntPerCore
    basicBlock := self.basicBlock
    resultBlock := self.resultBlock
    coreNum := asInt32 self.vectorCoreNum
    realCore := uint32 (uint64 (ceilDiv self.unitA.outer factorACntPerCore *
      ceilDiv self.unitR.outer factorRCntPerCore)) }

/-! ## What a core works on -/

/-- Block `b` works on the tile in row `i` and column `j`: the kernel gets its place in the grid
from a division by `groupR`. -/
def ReduceOpTilingData.WorksOn (t : ReduceOpTilingData) (b i j : ℤ) : Prop :=
  (b / t.groupR * t.factorACntPerCore ≤ i ∧ i < (b / t.groupR + 1) * t.factorACntPerCore) ∧
    (b % t.groupR * t.factorRCntPerCore ≤ j ∧ j < (b % t.groupR + 1) * t.factorRCntPerCore)

structure CoresCover (vectorCoreNum : ℤ) (t : ReduceOpTilingData) : Prop where
  core_le : t.realCore ≤ vectorCoreNum
  grid : t.realCore = pieces t.factorATotalCnt t.factorACntPerCore * t.groupR
  once : ∀ i j, (0 ≤ i ∧ i < t.factorATotalCnt) → (0 ≤ j ∧ j < t.factorRTotalCnt) →
    ∃! b, (0 ≤ b ∧ b < t.realCore) ∧ t.WorksOn b i j

/-! ## Even splits -/

/-- How many cores `d` tiles are dealt out to by the length that is even for `c` of them. -/
def evenly (d c : ℤ) : ℤ := pieces d (pieces d c)

/-- The number of cores in the grid, before it is cut to 32 bits. -/
def coreGrid (outerA outerR vectorCoreNum : ℤ) : ℤ :=
  let tiles := uint64 (outerA * outerR)
  let cores := evenly tiles vectorCoreNum
  if tiles = 0 then 1
  else if cores ≤ outerA then evenly outerA cores
  else outerA * evenly outerR
    (if min (pieces cores outerA * outerA) (2 ^ 64 - 1) ≤ vectorCoreNum
      then pieces cores outerA else cores / outerA)

section Even

variable {d c f m A R V : ℤ}

theorem ceilDiv_eq (hx : 0 ≤ d) (hy : 0 < f) : ceilDiv d f = pieces d f := by
  unfold ceilDiv pieces
  rcases hx.eq_or_lt with h0 | hpos
  · rw [← h0, if_neg (by simp), Int.ediv_eq_zero_of_lt (by omega) (by omega)]
  have hdiv := Int.mul_ediv_add_emod d f
  have hlt := Int.emod_lt_of_pos d hy
  have hnn := Int.emod_nonneg d hy.ne'
  rw [if_pos ⟨hy.ne', hpos.ne'⟩]
  split
  next hr =>
    refine ((Int.ediv_eq_iff_of_pos hy).mpr ⟨?_, ?_⟩).symm <;> rw [add_mul, mul_comm (d / f)] <;>
      omega
  next hr =>
    refine ((Int.ediv_eq_iff_of_pos hy).mpr ⟨?_, ?_⟩).symm <;> rw [mul_comm] <;> omega

theorem ceilDiv_zero_right (d : ℤ) : ceilDiv d 0 = d := if_neg fun h => h.1 rfl

theorem ceilDiv_zero_left (f : ℤ) : ceilDiv 0 f = 0 := if_neg fun h => h.2 rfl

theorem pieces_one (d : ℤ) : pieces d 1 = d := by simp [pieces]

theorem pieces_eq_one (hd : 0 < d) (h : d ≤ f) : pieces d f = 1 := by
  have hf : 0 < f := hd.trans_le h
  exact le_antisymm ((pieces_le_iff hf).mpr (by omega)) (pieces_pos hd hf)

theorem pieces_mul (d : ℤ) (hf : 0 < f) : pieces (d * f) f = d := by
  refine le_antisymm ((pieces_le_iff hf).mpr le_rfl) (le_of_mul_le_mul_right ?_ hf)
  exact (pieces_le_iff hf).mp le_rfl

theorem pieces_between (hf : 0 < f) (hd : d ≤ m) (hm : m ≤ pieces d f * f) :
    pieces m f = pieces d f :=
  le_antisymm ((pieces_le_iff hf).mpr hm)
    ((pieces_le_iff hf).mpr (hd.trans ((pieces_le_iff hf).mp le_rfl)))

theorem evenly_pos (hd : 0 < d) (hc : 0 < c) : 0 < evenly d c :=
  pieces_pos hd (pieces_pos hd hc)

theorem evenly_le (hd : 0 < d) (hc : 0 < c) : evenly d c ≤ c := pieces_pieces_le hd hc

theorem ceilAlign_eq (hd : 0 ≤ d) (hf : 0 < f) :
    ceilAlign d f = min (pieces d f * f) (2 ^ 64 - 1) := by
  unfold ceilAlign
  rw [if_neg hf.ne', ceilDiv_eq hd hf]
  split
  next h => exact (min_eq_right ((Int.ediv_lt_iff_lt_mul hf).mp h).le).symm
  next h => exact (min_eq_left ((Int.le_ediv_iff_mul_le hf).mp (not_lt.mp h))).symm

end Even

/-! ## The split is even -/

section Split

variable {A R V fA fR : ℤ}

theorem blockDim_zero (hA : 0 ≤ A) (h : uint64 (A * R) = 0) : blockDim A R V = 0 := by
  unfold blockDim
  simp only [h, ceilDiv_zero_left]
  exact if_neg hA.not_gt

section

variable (h : 0 < uint64 (A * R)) (hV : 0 < V)
include h hV

/-- `blockDim` before it is rounded. -/
theorem ceilDiv_ceilDiv :
    ceilDiv (uint64 (A * R)) (ceilDiv (uint64 (A * R)) V) = evenly (uint64 (A * R)) V := by
  rw [ceilDiv_eq h.le hV, ceilDiv_eq h.le (pieces_pos h hV)]
  rfl

theorem blockDim_rows
    (hle : evenly (uint64 (A * R)) V ≤ A) : blockDim A R V = evenly (uint64 (A * R)) V := by
  unfold blockDim
  simp only [ceilDiv_ceilDiv h hV]
  exact if_neg hle.not_gt

theorem blockDim_shared (hA : 0 < A)
    (hlt : A < evenly (uint64 (A * R)) V) :
    blockDim A R V =
      if min (pieces (evenly (uint64 (A * R)) V) A * A) (2 ^ 64 - 1) ≤ V
        then min (pieces (evenly (uint64 (A * R)) V) A * A) (2 ^ 64 - 1)
        else evenly (uint64 (A * R)) V / A * A := by
  unfold blockDim
  simp only [ceilDiv_ceilDiv h hV, ceilAlign_eq (hA.trans hlt).le hA]
  rw [if_pos hlt, floorAlign, if_neg hA.ne']

end

/-- What is needed of the two factors. -/
structure EvenSplit (A R V fA fR : ℤ) : Prop where
  a_pos : 0 < fA
  r_pos : 0 < fR
  total : pieces A fA * pieces R fR = coreGrid A R V
  row : pieces R fR = 1 ∨ fA = 1

theorem EvenSplit.of_shared {cores : ℤ} (hA : 0 < A) (hR : 0 < R) (hle : A ≤ cores)
    (h : coreGrid A R V = A * evenly R (pieces cores A)) :
    EvenSplit A R V (ceilDiv A cores) (ceilDiv R (ceilDiv cores A)) := by
  have hcores : 0 < cores := hA.trans_le hle
  have hshare : 0 < pieces cores A := pieces_pos hcores hA
  rw [ceilDiv_eq hA.le hcores, pieces_eq_one hA hle, ceilDiv_eq hcores.le hA,
    ceilDiv_eq hR.le hshare]
  refine ⟨one_pos, pieces_pos hR hshare, ?_, .inr rfl⟩
  rw [pieces_one, h]
  rfl

/-- The split that the tiling takes is even. -/
theorem evenSplit (hA : 0 < A) (hR : 0 < R) (hV : 0 < V) :
    EvenSplit A R V (ceilDiv A (blockDim A R V)) (ceilDiv R (ceilDiv (blockDim A R V) A)) := by
  rcases (Int.emod_nonneg (A * R) (show (2 : ℤ) ^ 64 ≠ 0 by decide)).eq_or_lt with h0 | hpos
  · -- the product has wrapped round to zero, and one core gets it all
    have hzero : uint64 (A * R) = 0 := h0.symm
    rw [blockDim_zero hA.le hzero, ceilDiv_zero_left, ceilDiv_zero_right, ceilDiv_zero_right]
    refine ⟨hA, hR, ?_, .inl (pieces_eq_one hR le_rfl)⟩
    rw [pieces_eq_one hA le_rfl, pieces_eq_one hR le_rfl, coreGrid, if_pos hzero, one_mul]
  have hpos : 0 < uint64 (A * R) := hpos
  have hcores := evenly_pos hpos hV
  rcases le_or_gt (evenly (uint64 (A * R)) V) A with hle | hlt
  · have hone : pieces R R = 1 := pieces_eq_one hR le_rfl
    rw [blockDim_rows hpos hV hle, ceilDiv_eq hcores.le hA, pieces_eq_one hcores hle,
      ceilDiv_eq hA.le hcores, ceilDiv_eq hR.le one_pos, pieces_one]
    refine ⟨pieces_pos hA hcores, hR, ?_, .inl hone⟩
    rw [hone, mul_one, coreGrid, if_neg hpos.ne', if_pos hle]
    rfl
  · have hnum : uint64 (A * R) < 2 ^ 64 := Int.emod_lt_of_pos _ (by decide)
    have hfit : evenly (uint64 (A * R)) V ≤ 2 ^ 64 - 1 :=
      (pieces_le hpos (pieces_pos hpos hV)).trans (by omega)
    have hgrid : coreGrid A R V = A * evenly R
        (if min (pieces (evenly (uint64 (A * R)) V) A * A) (2 ^ 64 - 1) ≤ V
          then pieces (evenly (uint64 (A * R)) V) A else evenly (uint64 (A * R)) V / A) := by
      rw [coreGrid, if_neg hpos.ne', if_neg hlt.not_ge]
    rw [blockDim_shared hpos hV hA hlt]
    generalize evenly (uint64 (A * R)) V = b at *
    split at hgrid
    next hup =>
      have hmul : b ≤ pieces b A * A := (pieces_le_iff hA).mp le_rfl
      have hmin : b ≤ min (pieces b A * A) (2 ^ 64 - 1) := le_min hmul hfit
      rw [if_pos hup]
      refine .of_shared hA hR (hlt.le.trans hmin) ?_
      rw [hgrid, pieces_between hA hmin (min_le_left _ _)]
    next hdown =>
      have hrow : 1 ≤ b / A := (Int.le_ediv_iff_mul_le hA).mpr (by omega)
      rw [if_neg hdown]
      refine .of_shared hA hR (le_mul_of_one_le_left hA.le hrow) ?_
      rw [hgrid, pieces_mul _ hA]

/-- The grid has no more cores than there are, while either number fits 32 bits. -/
theorem coreGrid_le (hA : 0 < A) (hR : 0 < R) (hV : 0 < V)
    (h : coreGrid A R V < 2 ^ 32 ∨ V < 2 ^ 32) : coreGrid A R V ≤ V := by
  unfold coreGrid at *
  have hnonneg : 0 ≤ uint64 (A * R) := Int.emod_nonneg _ (by decide)
  simp only at *
  split
  next => exact hV
  next hne =>
    rw [if_neg hne] at h
    have hpos : 0 < uint64 (A * R) := by omega
    have hb := evenly_le hpos hV
    have hbpos := evenly_pos hpos hV
    generalize evenly (uint64 (A * R)) V = b at *
    split
    next hle => exact (evenly_le hA hbpos).trans hb
    next hgt =>
      rw [if_neg hgt] at h
      split
      next hup =>
        rw [if_pos hup] at h
        have hshare : 0 < pieces b A := pieces_pos hbpos hA
        have hcut := mul_le_mul_of_nonneg_left (evenly_le hR hshare) hA.le
        rw [mul_comm (pieces b A)] at hup
        omega
      next hdown =>
        have hshare : 0 < b / A := (Int.le_ediv_iff_mul_le hA).mpr (by omega)
        have hcut := mul_le_mul_of_nonneg_left (evenly_le hR hshare) hA.le
        have hdiv := Int.mul_ediv_self_le (x := b) hA.ne'
        omega

end Split

/-! ## The grid of cores -/

section Grid

variable {t : ReduceOpTilingData} {b i j : ℤ}

theorem ReduceOpTilingData.worksOn_iff (hA : 0 < t.factorACntPerCore)
    (hR : 0 < t.factorRCntPerCore) : t.WorksOn b i j ↔
      b / t.groupR = i / t.factorACntPerCore ∧ b % t.groupR = j / t.factorRCntPerCore := by
  unfold WorksOn
  rw [eq_comm, Int.ediv_eq_iff_of_pos hA, eq_comm (a := b % t.groupR), Int.ediv_eq_iff_of_pos hR,
    add_mul, add_mul, one_mul, one_mul]

theorem ediv_lt_pieces {d f : ℤ} (hf : 0 < f) (hi : i < d) : i / f < pieces d f :=
  (Int.ediv_lt_iff_lt_mul hf).mpr (hi.trans_le ((pieces_le_iff hf).mp le_rfl))

theorem pred_ediv (d : ℤ) {f : ℤ} (hf : 0 < f) : (d - 1) / f = pieces d f - 1 := by
  have hsum : d + f - 1 = d - 1 + 1 * f := by ring
  rw [pieces, hsum, Int.add_mul_ediv_right _ _ hf.ne']
  ring

/-- Every pair of tiles has one core just when the grid fits the cores. -/
theorem once_iff (hA : 0 < t.factorACntPerCore) (hR : 0 < t.factorRCntPerCore)
    (hAt : 0 < t.factorATotalCnt) (hRt : 0 < t.factorRTotalCnt)
    (hgroup : t.groupR = pieces t.factorRTotalCnt t.factorRCntPerCore) :
    (∀ i j, (0 ≤ i ∧ i < t.factorATotalCnt) → (0 ≤ j ∧ j < t.factorRTotalCnt) →
        ∃! b, (0 ≤ b ∧ b < t.realCore) ∧ t.WorksOn b i j) ↔
      pieces t.factorATotalCnt t.factorACntPerCore * t.groupR ≤ t.realCore := by
  have hg : 0 < t.groupR := hgroup ▸ pieces_pos hRt hR
  simp only [t.worksOn_iff hA hR, Int.ediv_emod_unique hg]
  constructor
  · intro h
    -- the last cell needs the last core
    obtain ⟨b, ⟨⟨-, hb⟩, heq, -, -⟩, -⟩ := h (t.factorATotalCnt - 1) (t.factorRTotalCnt - 1)
      (by omega) (by omega)
    rw [pred_ediv _ hA, pred_ediv _ hR, ← hgroup, mul_sub, mul_one, mul_comm] at heq
    omega
  · intro hle i j ⟨hi, hi'⟩ ⟨hj, hj'⟩
    have hrow : i / t.factorACntPerCore + 1 ≤ pieces t.factorATotalCnt t.factorACntPerCore :=
      ediv_lt_pieces hA hi'
    have hcol := ediv_lt_pieces hR hj'
    have hrow0 := Int.ediv_nonneg hi hA.le
    have hcol0 := Int.ediv_nonneg hj hR.le
    rw [← hgroup] at hcol
    refine ⟨_, ⟨⟨add_nonneg hcol0 (mul_nonneg hg.le hrow0), ?_⟩, rfl, hcol0, hcol⟩, ?_⟩
    · have hcell := mul_le_mul_of_nonneg_right hrow hg.le
      rw [add_mul, one_mul, mul_comm] at hcell
      omega
    · intro b ⟨_, heq, _, _⟩
      exact heq.symm

end Grid

/-! ## Results -/

variable {self : ReduceOpTiling}

section

variable (hA : 0 < self.unitA.outer) (hR : 0 < self.unitR.outer) (hV : 0 < self.vectorCoreNum)
include hA hR hV

theorem realCore_eq : (setTilingData self).realCore =
      coreGrid self.unitA.outer self.unitR.outer self.vectorCoreNum % 2 ^ 32 := by
  have hsplit := evenSplit hA hR hV
  unfold setTilingData uint32 uint64
  simp only [ceilDiv_eq hA.le hsplit.a_pos, ceilDiv_eq hR.le hsplit.r_pos, hsplit.total]
  exact Int.emod_emod_of_dvd _ (by decide)

theorem grid_total :
    pieces (setTilingData self).factorATotalCnt (setTilingData self).factorACntPerCore *
      (setTilingData self).groupR =
        coreGrid self.unitA.outer self.unitR.outer self.vectorCoreNum := by
  have hsplit := evenSplit hA hR hV
  rw [← hsplit.total, ← ceilDiv_eq hR.le hsplit.r_pos]
  rfl

theorem once_iff_le :
    (∀ i j, (0 ≤ i ∧ i < self.unitA.outer) → (0 ≤ j ∧ j < self.unitR.outer) →
        ∃! b, (0 ≤ b ∧ b < (setTilingData self).realCore) ∧ (setTilingData self).WorksOn b i j) ↔
      coreGrid self.unitA.outer self.unitR.outer self.vectorCoreNum ≤
        (setTilingData self).realCore := by
  have hsplit := evenSplit hA hR hV
  rw [← grid_total hA hR hV]
  exact once_iff (t := setTilingData self) hsplit.a_pos hsplit.r_pos hA hR
    (ceilDiv_eq hR.le hsplit.r_pos)

theorem covers_of_lt (h : coreGrid self.unitA.outer self.unitR.outer self.vectorCoreNum < 2 ^ 32) :
    CoresCover self.vectorCoreNum (setTilingData self) := by
  have hsplit := evenSplit hA hR hV
  have hpos : 0 < coreGrid self.unitA.outer self.unitR.outer self.vectorCoreNum := by
    rw [← hsplit.total]
    exact mul_pos (pieces_pos hA hsplit.a_pos) (pieces_pos hR hsplit.r_pos)
  have hreal := realCore_eq hA hR hV
  rw [Int.emod_eq_of_lt hpos.le h] at hreal
  exact ⟨hreal.trans_le (coreGrid_le hA hR hV (.inl h)), hreal.trans (grid_total hA hR hV).symm,
    (once_iff_le hA hR hV).mpr hreal.ge⟩

end

/-- The cores cover the tiles just when the grid of cores fits the 32 bits it is stored in. -/
theorem setTilingData_covers_iff (self : ReduceOpTiling) (hA : 0 < self.unitA.outer)
    (hR : 0 < self.unitR.outer) (hV : 0 < self.vectorCoreNum) :
    CoresCover self.vectorCoreNum (setTilingData self) ↔
      coreGrid self.unitA.outer self.unitR.outer self.vectorCoreNum < 2 ^ 32 := by
  refine ⟨fun h => ?_, covers_of_lt hA hR hV⟩
  have hle := (once_iff_le hA hR hV).mp h.once
  have hreal := realCore_eq hA hR hV
  omega

/-- Twelve rows of five tiles for 64 cores: 60 of them, each with one tile. -/
theorem setTilingData_covers_twelve :
    CoresCover 64 (setTilingData ⟨⟨0, 12, 1⟩, ⟨1, 5, 1⟩, ⟨1, 1⟩, 8192, 8192, 64⟩) :=
  (setTilingData_covers_iff ⟨⟨0, 12, 1⟩, ⟨1, 5, 1⟩, ⟨1, 1⟩, 8192, 8192, 64⟩
    (by decide) (by decide) (by decide)).mpr (by decide)

/-- As many rows as cores, `2 ^ 32` of them, and no core is started. -/
theorem setTilingData_starts_none : ¬ CoresCover (2 ^ 32)
      (setTilingData ⟨⟨0, 2 ^ 32, 1⟩, ⟨1, 1, 1⟩, ⟨1, 1⟩, 8192, 8192, 2 ^ 32⟩) := by
  intro h
  obtain ⟨b, ⟨⟨hb, hb'⟩, -⟩, -⟩ := h.once 0 0 (by decide) (by decide)
  have hnone :
      (setTilingData ⟨⟨0, 2 ^ 32, 1⟩, ⟨1, 1, 1⟩, ⟨1, 1⟩, 8192, 8192, 2 ^ 32⟩).realCore = 0 := by
    decide
  omega

end OpBase.Tiling
