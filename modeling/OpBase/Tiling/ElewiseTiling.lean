import OpBase.Tiling.Cuts

/-!
# Element-wise tiling

`ElewiseTiling` of `elewise_tiling.cpp`, as `ElewiseBaseTiling::DoTiling` calls it. The
elements of the output are divided among as many cores as have four kilobytes to do each, in
blocks of a multiple of eight elements. A core goes through its block in pieces that fit into
the unified buffer.

> `elewiseTiling_covers_iff`: blocks and pieces cover the elements, unless the number of bits
> that they are is no `int64_t` once rounded up.
-/

namespace OpBase.Tiling

open OpBase.Lib.Checked

def BITS_NUM : ℤ := 8
def MIN_TILING_BITS_SIZE_PER_CORE : ℤ := 32768
def COMPUTE_KEY : ℤ := 0
def COMPUTE_KEY_OFFSET : ℤ := 1000000
def SCHEDULE_KEY : ℤ := 100

structure ComputeParams where
  maxDtypeBits : ℤ
  minDtypeBits : ℤ
  extraSize : List ℤ
  bufferDivisor : List ℤ

structure ElewiseTilingParams where
  coreNum : ℤ
  shape : List ℤ
  ubSize : ℤ
  computeMap : ℤ → Option ComputeParams

structure ElewiseTilingData where
  innerKey : ℤ
  dim0 : ℤ
  ubFormer : ℤ
  blockFormer : ℤ
  blockNum : ℤ
  ubLoopOfFormerBlock : ℤ
  ubLoopOfTailBlock : ℤ
  ubTailOfFormerBlock : ℤ
  ubTailOfTailBlock : ℤ
  elemNum : ℤ
  deriving DecidableEq

/-- The same computation as for broadcasting. -/
def getMaxElemNum (ubSize : ℤ) (computeParams : ComputeParams) : Except Fault ℤ :=
  broadcastGetMaxElemNum ubSize
    ⟨computeParams.minDtypeBits, computeParams.extraSize, computeParams.bufferDivisor⟩

/-- The loop over the shape. -/
def countElements (dim0 : ℤ) : List ℤ → Except Fault ℤ
  | [] => .ok dim0
  | d :: rest =>
    if d = 0 then .error .graphFailed
    else do
      let product ← int64 (dim0 * d)
      countElements product rest

/-- `d - (n - 1) * f`. -/
def lastPiece (d f n : ℤ) : Except Fault ℤ := do
  let before ← int64 (n - 1)
  let length ← int64 (before * f)
  int64 (d - length)

/-- From the bits of all elements on. -/
def cutElements (coreNum ubSize dim0 : ℤ) (computeParams : ComputeParams) :
    Except Fault ElewiseTilingData := do
  let bits ← int64 (dim0 * computeParams.minDtypeBits)
  let cores ← ceilQuotient bits MIN_TILING_BITS_SIZE_PER_CORE
  let coreNum := if coreNum < cores then coreNum else cores
  let perCore ← ceilQuotient dim0 coreNum
  let sum ← int64 (perCore + 7)
  let eighths ← divide sum 8
  let blockFormer ← int64 (eighths * 8)
  let blockNum ← ceilQuotient dim0 blockFormer
  let blockTail ← lastPiece dim0 blockFormer blockNum
  let maxElemNum ← getMaxElemNum ubSize computeParams
  let ubFormer := maxElemNum
  if ubFormer = 0 then .error .graphFailed
  else do
    let ubLoopOfFormerBlock ← ceilQuotient blockFormer ubFormer
    let ubLoopOfTailBlock ← ceilQuotient blockTail ubFormer
    let ubTailOfFormerBlock ← lastPiece blockFormer ubFormer ubLoopOfFormerBlock
    let ubTailOfTailBlock ← lastPiece blockTail ubFormer ubLoopOfTailBlock
    .ok {
      innerKey := COMPUTE_KEY * COMPUTE_KEY_OFFSET + SCHEDULE_KEY
      dim0 := dim0
      ubFormer := ubFormer
      blockFormer := blockFormer
      blockNum := blockNum
      ubLoopOfFormerBlock := ubLoopOfFormerBlock
      ubLoopOfTailBlock := ubLoopOfTailBlock
      ubTailOfFormerBlock := ubTailOfFormerBlock
      ubTailOfTailBlock := ubTailOfTailBlock
      elemNum := maxElemNum }

def elewiseTiling (params : ElewiseTilingParams) : Except Fault ElewiseTilingData := do
  let dim0 ← countElements 1 params.shape
  match params.computeMap COMPUTE_KEY with
  | none => .error .graphFailed
  | some computeParams =>
    if params.coreNum = 0 then .error .graphFailed
    else do
      let extraSize ← nth computeParams.extraSize 0
      if params.ubSize < extraSize then .error .graphFailed
      else cutElements params.coreNum params.ubSize dim0 computeParams

/-- What the operator's graph says of itself at compile time. -/
structure OpDag where
  maxDtypeBytes : ℕ
  minDtypeBytes : ℕ
  bufferNum : ℕ

/-- The parameters that `ElewiseBaseTiling::DoTiling` makes. -/
def computeParams (dag : OpDag) (extraSize extraBufferNum : ℤ) : Except Fault ComputeParams := do
  let maxDtypeBits ← int64 (dag.maxDtypeBytes * BITS_NUM)
  let minDtypeBits ← int64 (dag.minDtypeBytes * BITS_NUM)
  let buffers ← int64 (dag.bufferNum + extraBufferNum)
  let divisor ← int64 (buffers * maxDtypeBits)
  .ok {
    maxDtypeBits := maxDtypeBits
    minDtypeBits := minDtypeBits
    extraSize := [extraSize]
    bufferDivisor := [divisor] }

def doTiling (dag : OpDag) (coreNum ubSize : ℤ) (shape : List ℤ)
    (extraSize extraBufferNum : ℤ) : Except Fault ElewiseTilingData := do
  let params ← computeParams dag extraSize extraBufferNum
  elewiseTiling {
    coreNum := coreNum
    shape := shape
    ubSize := ubSize
    computeMap := fun key => if key = 0 then some params else none }

/-! ## The buffer -/

section
variable {dag : OpDag} {coreNum ubSize extraSize extraBufferNum m : ℤ} {shape : List ℤ}
  {params : ComputeParams}

theorem computeParams_eq_ok (h : computeParams dag extraSize extraBufferNum = .ok params) :
    params.extraSize = [extraSize] ∧ (∃ k, params.bufferDivisor = [k * 8]) ∧
      params.minDtypeBits = dag.minDtypeBytes * 8 := by
  unfold computeParams at h
  obtain ⟨maxBits, hmax, h⟩ := bind_eq_ok.mp h
  obtain ⟨minBits, hmin, h⟩ := bind_eq_ok.mp h
  obtain ⟨buffers, -, h⟩ := bind_eq_ok.mp h
  obtain ⟨divisor, hdiv, ⟨⟩⟩ := bind_eq_ok.mp h
  refine ⟨rfl, ⟨buffers * dag.maxDtypeBytes, ?_⟩, int64_eq_ok hmin⟩
  rw [int64_eq_ok hdiv, int64_eq_ok hmax, mul_assoc]
  rfl

theorem broadcastGetMaxElemNum_eq_ok {bits extra divisor : ℤ}
    (h : broadcastGetMaxElemNum ubSize ⟨bits, [extra], [divisor]⟩ = .ok m) :
    (ubSize - extra) * 8 < 2 ^ 63 ∧ divisor ≠ 0 ∧ bits ≠ 0 ∧
      m = (((ubSize - extra) * 8).tdiv divisor).tdiv ((2048 : ℤ).tdiv bits) *
        (2048 : ℤ).tdiv bits := by
  unfold broadcastGetMaxElemNum at h
  obtain ⟨_, ⟨⟩, h⟩ := bind_eq_ok.mp h
  obtain ⟨_, ⟨⟩, h⟩ := bind_eq_ok.mp h
  obtain ⟨room, hroom, h⟩ := bind_eq_ok.mp h
  obtain ⟨roomBits, hbits, h⟩ := bind_eq_ok.mp h
  obtain ⟨elems, helems, h⟩ := bind_eq_ok.mp h
  obtain ⟨elems', helems', h⟩ := bind_eq_ok.mp h
  obtain ⟨align, halign, h⟩ := bind_eq_ok.mp h
  obtain ⟨aligned, haligned, h⟩ := bind_eq_ok.mp h
  obtain ⟨aligned', haligned', h⟩ := bind_eq_ok.mp h
  obtain rfl := int64_eq_ok hroom
  have hlt := int64_lt hbits
  obtain rfl := int64_eq_ok hbits
  obtain ⟨hdivisor, rfl⟩ := divide_eq_ok helems
  obtain rfl := int64_eq_ok helems'
  obtain ⟨hmin, rfl⟩ := divide_eq_ok halign
  obtain ⟨-, rfl⟩ := divide_eq_ok haligned
  obtain rfl := int64_eq_ok haligned'
  exact ⟨hlt, hdivisor, hmin, int64_eq_ok h⟩

theorem getMaxElemNum_lt (hp : computeParams dag extraSize extraBufferNum = .ok params)
    (hextra : extraSize ≤ ubSize) (h : getMaxElemNum ubSize params = .ok m) (hm : 0 < m) :
    8 ≤ params.minDtypeBits ∧ m < 2 ^ 60 := by
  obtain ⟨he, ⟨k, hk⟩, hmin⟩ := computeParams_eq_ok hp
  unfold getMaxElemNum at h
  rw [he, hk] at h
  obtain ⟨hroom, hk0, hmin0, rfl⟩ := broadcastGetMaxElemNum_eq_ok h
  have hbits : 8 ≤ params.minDtypeBits := by omega
  refine ⟨hbits, ?_⟩
  have hroom0 : 0 ≤ (ubSize - extraSize) * 8 := by omega
  have halign : 0 ≤ (2048 : ℤ).tdiv params.minDtypeBits := Int.tdiv_nonneg (by decide) (by omega)
  generalize (2048 : ℤ).tdiv params.minDtypeBits = align at *
  rcases lt_or_gt_of_ne hk0 with hneg | hpos
  · -- nothing fits into a negative share
    exfalso
    have helems := Int.tdiv_nonpos_of_nonneg_of_nonpos hroom0 hneg.le
    have haligned := Int.tdiv_nonneg (neg_nonneg.mpr helems) halign
    rw [Int.neg_tdiv, neg_nonneg] at haligned
    exact absurd hm (not_lt.mpr (mul_nonpos_of_nonpos_of_nonneg haligned halign))
  · have helems := Int.tdiv_nonneg hroom0 hpos.le
    calc (((ubSize - extraSize) * 8).tdiv (k * 8)).tdiv align * align
        ≤ ((ubSize - extraSize) * 8).tdiv (k * 8) := by
          rw [Int.tdiv_eq_ediv_of_nonneg helems]
          rcases halign.eq_or_lt with h0 | h0
          · rw [← h0, mul_zero]
            exact helems
          · exact Int.ediv_mul_le _ h0.ne'
      _ < 2 ^ 60 := by
          rw [Int.tdiv_eq_ediv_of_nonneg hroom0]
          refine Int.ediv_lt_of_lt_mul hpos ?_
          omega

/-! ## The elements -/

theorem countElements_eq : ∀ {shape : List ℤ} {dim0 : ℤ}, (∀ d ∈ shape, 1 ≤ d) → 1 ≤ dim0 →
    dim0 * shape.prod < 2 ^ 63 → countElements dim0 shape = .ok (dim0 * shape.prod)
  | [], dim0, _, _, _ => by
    rw [List.prod_nil, mul_one]
    rfl
  | d :: rest, dim0, h, h0, hlt => by
    rw [List.forall_mem_cons] at h
    rw [List.prod_cons, ← mul_assoc] at hlt ⊢
    have hprod : 1 ≤ rest.prod := prod_pos (fun x hx => by linarith [h.2 x hx]) fun hz => by
      linarith [h.2 0 hz]
    have hpos : 1 ≤ dim0 * d := one_le_mul_of_one_le_of_one_le h0 h.1
    have hle : dim0 * d ≤ dim0 * d * rest.prod := le_mul_of_one_le_right (by omega) hprod
    rw [countElements, if_neg (by omega), int64_eq (by omega) (by omega), ok_bind]
    exact countElements_eq h.2 hpos hlt

theorem countElements_eq_ok : ∀ {shape : List ℤ} {dim0 n : ℤ},
    countElements dim0 shape = .ok n → n = dim0 * shape.prod
  | [], dim0, n, h => by
    rw [List.prod_nil, mul_one]
    exact (Except.ok.inj h).symm
  | d :: rest, dim0, n, h => by
    rw [countElements] at h
    split at h
    · cases h
    · obtain ⟨p, hp, h⟩ := bind_eq_ok.mp h
      rw [countElements_eq_ok h, int64_eq_ok hp, List.prod_cons, mul_assoc]

theorem lastPiece_eq {d f : ℤ} (hd : 0 < d) (hf : 0 < f) (h : d < 2 ^ 63) :
    lastPiece d f (pieces d f) = .ok (d - (pieces d f - 1) * f) := by
  have hpos := pieces_pos hd hf
  have hle := pieces_le hd hf
  have htail := pieces_tail d hf
  have hbefore : 0 ≤ (pieces d f - 1) * f := mul_nonneg (by omega) hf.le
  unfold lastPiece
  rw [int64_eq (by omega) (by omega), ok_bind, int64_eq hbefore (by omega), ok_bind,
    int64_eq htail.1.le (by omega)]

/-- What the tiling is for. Blocks make up the elements, and pieces a block: `blockTail` is the
length of the last one, which the data does not keep. -/
structure ElewiseCovers (coreNum maxElemNum dim0 : ℤ) (t : ElewiseTilingData) : Prop where
  dim0_eq : t.dim0 = dim0
  formerBlock : Cut t.blockFormer t.ubFormer t.ubLoopOfFormerBlock t.ubTailOfFormerBlock
  tailBlock : ∃ blockTail, Cut dim0 t.blockFormer t.blockNum blockTail ∧
    Cut blockTail t.ubFormer t.ubLoopOfTailBlock t.ubTailOfTailBlock
  ubFormer_le : t.ubFormer ≤ maxElemNum
  blockNum_le : t.blockNum ≤ coreNum

/-- While the size in bits fits, the cores cover the elements. -/
theorem cutElements_covers {dim0 : ℤ} (hcore : 1 ≤ coreNum) (hdim : 0 < dim0)
    (hbits : 8 ≤ params.minDtypeBits) (hmax : getMaxElemNum ubSize params = .ok m) (hm : 0 < m)
    (hm' : m < 2 ^ 60) (h : dim0 * params.minDtypeBits + 32768 < 2 ^ 63) :
    ∃ t, cutElements coreNum ubSize dim0 params = .ok t ∧ ElewiseCovers coreNum m dim0 t := by
  have hdim' : dim0 * 8 ≤ dim0 * params.minDtypeBits := mul_le_mul_of_nonneg_left hbits hdim.le
  -- the cores
  have hcores : ceilQuotient (dim0 * params.minDtypeBits) MIN_TILING_BITS_SIZE_PER_CORE =
      .ok (pieces (dim0 * params.minDtypeBits) 32768) :=
    ceilQuotient_eq (by omega) (by decide) h
  have hK := pieces_pos (by omega : 0 < dim0 * params.minDtypeBits) (by decide : (0 : ℤ) < 32768)
  have hK' : pieces (dim0 * params.minDtypeBits) 32768 ≤ 2 ^ 48 :=
    (pieces_le_iff (by decide)).mpr (by omega)
  unfold cutElements
  rw [int64_eq (by omega) (by omega), ok_bind, hcores, ok_bind]
  generalize pieces (dim0 * params.minDtypeBits) 32768 = K at *
  dsimp only
  have hc : 1 ≤ (if coreNum < K then coreNum else K) ∧ (if coreNum < K then coreNum else K) ≤ K ∧
      (if coreNum < K then coreNum else K) ≤ coreNum := by
    split <;> omega
  generalize (if coreNum < K then coreNum else K) = c at *
  obtain ⟨hc, hcK, hccore⟩ := hc
  -- the blocks
  have hP := pieces_pos hdim hc
  have hPd := pieces_le hdim hc
  have hPc : dim0 ≤ pieces dim0 c * c := (pieces_le_iff hc).mp le_rfl
  rw [ceilQuotient_eq hdim.le hc (by omega), ok_bind]
  generalize pieces dim0 c = P at *
  rw [int64_eq (by omega) (by omega), ok_bind, divide_eq (by omega) (by decide), ok_bind,
    int64_eq (by omega) (by omega), ok_bind]
  have hB : P ≤ (P + 7) / 8 * 8 ∧ (P + 7) / 8 * 8 ≤ P + 7 := by omega
  generalize (P + 7) / 8 * 8 = B at *
  have hN : pieces dim0 B ≤ c := by
    rw [pieces_le_iff (by omega)]
    nlinarith
  have hblocks := cut_pieces hdim (by omega : 0 < B)
  rw [ceilQuotient_eq hdim.le (by omega) (by omega), ok_bind,
    lastPiece_eq hdim (by omega) (by omega), ok_bind]
  have hT := hblocks.tail_pos
  have hT' := hblocks.tail_le
  generalize dim0 - (pieces dim0 B - 1) * B = T at *
  -- the pieces
  have hformer := cut_pieces (by omega : 0 < B) hm
  have htail := cut_pieces hT hm
  rw [hmax, ok_bind, if_neg hm.ne', ceilQuotient_eq (by omega) hm (by omega), ok_bind,
    ceilQuotient_eq hT.le hm (by omega), ok_bind, lastPiece_eq (by omega) hm (by omega), ok_bind,
    lastPiece_eq hT hm (by omega), ok_bind]
  exact ⟨_, rfl, ⟨rfl, hformer, ⟨T, hblocks, htail⟩, le_refl m, hN.trans hccore⟩⟩

theorem doTiling_eq (hextra : extraSize ≤ ubSize) (hcore : 1 ≤ coreNum)
    (hp : computeParams dag extraSize extraBufferNum = .ok params) :
    doTiling dag coreNum ubSize shape extraSize extraBufferNum =
      (countElements 1 shape >>= fun dim0 => cutElements coreNum ubSize dim0 params) := by
  obtain ⟨he, -, -⟩ := computeParams_eq_ok hp
  unfold doTiling elewiseTiling
  rw [hp, ok_bind]
  refine congrArg _ (funext fun dim0 => ?_)
  show (if coreNum = 0 then _ else nth params.extraSize 0 >>= _) = _
  rw [if_neg (by omega), he]
  exact if_neg (not_lt.mpr hextra)

/-- The tiles cover every element once just when the size of the shape in bits stays in 63 bits,
with the room that rounding up takes. -/
theorem elewiseTiling_covers_iff (hshape : ∀ d ∈ shape, 1 ≤ d) (hcore : 1 ≤ coreNum)
    (hextra : extraSize ≤ ubSize) (hp : computeParams dag extraSize extraBufferNum = .ok params)
    (hmax : getMaxElemNum ubSize params = .ok m) (hm : 0 < m) :
    (∃ t, doTiling dag coreNum ubSize shape extraSize extraBufferNum = .ok t ∧
      ElewiseCovers coreNum m shape.prod t) ↔
      shape.prod * params.minDtypeBits + 32768 < 2 ^ 63 := by
  obtain ⟨hbits, hm'⟩ := getMaxElemNum_lt hp hextra hmax hm
  rw [doTiling_eq hextra hcore hp]
  constructor
  · intro ⟨t, h, _⟩
    obtain ⟨dim0, hdim0, h⟩ := bind_eq_ok.mp h
    obtain rfl := countElements_eq_ok hdim0
    rw [one_mul] at h
    obtain ⟨bits, hbits, h⟩ := bind_eq_ok.mp h
    obtain ⟨cores, hcores, -⟩ := bind_eq_ok.mp h
    rw [← int64_eq_ok hbits]
    exact (ceilQuotient_lt hcores).1
  · intro h
    have hprod : 0 < shape.prod := prod_pos (fun x hx => by linarith [hshape x hx]) fun hz => by
      linarith [hshape 0 hz]
    have hle : shape.prod * 8 ≤ shape.prod * params.minDtypeBits :=
      mul_le_mul_of_nonneg_left hbits hprod.le
    rw [countElements_eq hshape (le_refl 1) (by omega), ok_bind, one_mul]
    exact cutElements_covers hcore hprod hbits hmax hm hm' h

/-- A thousand elements of four bytes on two cores. -/
theorem elewiseTiling_covers_thousand :
    ∃ t, doTiling ⟨4, 4, 4⟩ 2 8192 [10, 100] 0 0 = .ok t ∧ ElewiseCovers 2 512 1000 t :=
  have hp : computeParams ⟨4, 4, 4⟩ 0 0 = .ok ⟨32, 32, [0], [128]⟩ := rfl
  have hmax : getMaxElemNum 8192 ⟨32, 32, [0], [128]⟩ = .ok 512 := rfl
  (elewiseTiling_covers_iff (by decide) (by decide) (by decide) hp hmax (by decide)).mpr
    (by decide)

/-- The bits of `2 ^ 60` bytes are not counted by an `int64_t`. -/
theorem elewiseTiling_overflows :
    computeParams ⟨4, 1, 4⟩ 0 0 = .ok ⟨32, 8, [0], [128]⟩ ∧
      getMaxElemNum 8192 ⟨32, 8, [0], [128]⟩ = .ok 512 ∧
      ¬ ∃ t, doTiling ⟨4, 1, 4⟩ 2 8192 [2 ^ 60] 0 0 = .ok t ∧ ElewiseCovers 2 512 (2 ^ 60) t := by
  refine ⟨rfl, rfl, ?_⟩
  intro ⟨t, h, _⟩
  have hrun : doTiling ⟨4, 1, 4⟩ 2 8192 [2 ^ 60] 0 0 = .error .undefined := rfl
  rw [hrun] at h
  cases h

end

end OpBase.Tiling
