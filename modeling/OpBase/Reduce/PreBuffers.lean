import OpBase.Dag.ReduceDag
import OpBase.Lib.Spans

/-!
# Where the buffers in front of a reduction lie

`op_common/atvoss/reduce/reduce_sch.h` and `reduce_sch_aux.h`. `Init` reserves bytes of the
unified buffer for what runs in front of the reduction, by the counts of the buffers;
`AllocTensorAux` finds the place of a buffer by its id alone. The ids run |mte2|mte3|tmp| for
ping and go on |mte2|mte3| for pong, and only the buffers for copying in have the size of one
block; the others have as many as the widest type needs.

Where the reduction follows the copy in, four ids stand for four buffers for copying in, and
four are reserved. But the place of an id is still that of the other table, with one buffer
for copying in: an id behind it gets the place of a wider buffer.

> `preBuffersApart_iff`: the buffers are apart and inside wherever the reduction stands further
> behind. Right behind the copy in they are so for an empty block, with buffers for
> temporaries, or if the widest type is as wide as the input.
-/

namespace OpBase.Reduce

open List OpBase.Dag OpBase.Lib

/-- The cast to `int32_t`. -/
def toInt32 (x : Int) : Int := Int.bmod x (2 ^ 32)

/-- `ReduceSch`, with the fields of the tiling data that the buffers depend on. -/
structure ReduceSch where
  opDag : DagSch
  basicBlock : Nat
  resultBlock : Nat

namespace ReduceSch

/-- `sizeof(InDType)`: the input is what the first node returns. -/
def inDTypeSize (s : ReduceSch) : Nat := (s.opDag.funList.head?.map (·.fn.outDataType.size)).getD 0

def ratio (s : ReduceSch) : Int :=
  if s.opDag.bufLevel = .level2 then toInt32 (s.opDag.maxDtypeBytes / s.inDTypeSize : Nat) else 1

def preMte2Num (s : ReduceSch) : Nat := s.opDag.preCounts.mte2

def preMte3Num (s : ReduceSch) : Nat := s.opDag.preCounts.mte3

/-- `GetPreTempCalcNum` -/
def preTempCalcNum (s : ReduceSch) : Nat := s.opDag.preCounts.temp

def getPreMte2Num (s : ReduceSch) : Nat :=
  if s.opDag.reduceOpPos = 1 then s.preMte2Num * 2 * 2 else s.preMte2Num * 2

def getPreMte3Num (s : ReduceSch) : Nat := s.preMte3Num * 2

/-- `preBufSize_` of `Init` -/
def preBufSize (s : ReduceSch) : Int :=
  toInt32 (s.basicBlock * s.getPreMte2Num +
    s.basicBlock * s.ratio * (s.getPreMte3Num + s.preTempCalcNum : Nat))

/-- The `uint8_t` of `AllocTensorAux`. -/
def pongOffset (s : ReduceSch) : Nat :=
  (s.preMte2Num + s.preMte3Num + s.preTempCalcNum) % 2 ^ 8

/-- `AllocTensorAux`: the place in the buffers before the reduction or behind it. -/
def allocTensorAux (s : ReduceSch) (pos : Nat) (bufId : Nat) : Int :=
  if pos < s.opDag.reduceOpPos then
    let offset :=
      if s.pongOffset < bufId then
        toInt32 (s.preMte2Num * s.basicBlock +
          (s.preMte3Num + s.preTempCalcNum : Nat) * s.basicBlock * s.ratio)
      else 0
    let newBufId := if s.pongOffset < bufId then bufId - s.pongOffset else bufId
    if newBufId < s.preMte2Num then toInt32 (offset + newBufId * s.basicBlock)
    else if newBufId < s.preMte2Num + s.preMte3Num then
      toInt32 (offset + s.preMte2Num * s.basicBlock +
        (newBufId - s.preMte2Num : Nat) * s.basicBlock * s.ratio)
    else
      toInt32 (offset + s.preMte2Num * s.basicBlock + s.preMte3Num * s.basicBlock * s.ratio +
        (newBufId - s.preMte2Num - s.preMte3Num : Nat) * s.basicBlock * s.ratio)
  else toInt32 (bufId * s.resultBlock)

/-- `GetPreBufId`, whose result is a `uint8_t`. -/
def getPreBufId (s : ReduceSch) (preBufferIds : List Int × List Int) (isStageOne : Bool)
    (pos pingPong idx : Nat) : Nat :=
  let at_ := fun (row : List Int) (i : Nat) => wordOf 8 (row.getD i (-1))
  if preBufferIds.1.getD pos (-1) = preBufferIds.2.getD pos (-1) then at_ preBufferIds.1 pos
  else if s.opDag.reduceOpPos = 1 ∨ !isStageOne then
    if pingPong = 0 then at_ preBufferIds.1 idx else at_ preBufferIds.2 idx
  else if pingPong = 0 then at_ preBufferIds.1 pos
  else at_ preBufferIds.2 pos

/-- An id of a node before the reduction, in some step of the loops. -/
def IsPreBufId (s : ReduceSch) (preBufferIds : List Int × List Int) (id : Nat) : Prop :=
  ∃ isStageOne pos pingPong idx, (pos < s.opDag.reduceOpPos.toNat ∧ pingPong < 2 ∧ idx < 2) ∧
    s.getPreBufId preBufferIds isStageOne pos pingPong idx = id

/-- The buffers for copying in; all are in the table for a reduction behind the copy in. -/
def IsCopyInBuffer (s : ReduceSch) (id : Nat) : Prop :=
  s.opDag.reduceOpPos = 1 ∨ id < s.preMte2Num ∨
    (s.opDag.preCounts.pongOffset ≤ id ∧ id < s.opDag.preCounts.pongOffset + s.preMte2Num)

instance {s : ReduceSch} {id : Nat} : Decidable (s.IsCopyInBuffer id) :=
  inferInstanceAs (Decidable (_ ∨ _ ∨ _ ∧ _))

/-- The bytes of a buffer that is not for copying in. -/
def wideBlock (s : ReduceSch) : Nat := s.basicBlock * s.ratio.toNat

def preBuffer (s : ReduceSch) (id : Nat) : Span where
  start := s.allocTensorAux 0 id
  len := if s.IsCopyInBuffer id then s.basicBlock else s.wideBlock

/-- The buffers are inside what is reserved, and no byte is in two of them. -/
def PreBuffersApart (s : ReduceSch) (preBufferIds : List Int × List Int) : Prop :=
  (∀ id, s.IsPreBufId preBufferIds id → (s.preBuffer id).Inside s.preBufSize.toNat) ∧
  ∀ id id', s.IsPreBufId preBufferIds id → s.IsPreBufId preBufferIds id' → id ≠ id' →
    ∀ i, (s.preBuffer id).Has i → ¬ (s.preBuffer id').Has i

/-- What runs before the reduction is computed into tensors, one for each node; right before a
reduction stands a copy in of one tensor, or another node. -/
structure IsReduceDag (s : ReduceSch) : Prop where
  reduceOpPos : 0 < s.opDag.reduceOpPos
  takesBuffer : ∀ f ∈ s.opDag.funList.take s.opDag.reduceOpPos.toNat, TakesBuffer f
  reduceOp : ∀ g, s.opDag.funList[s.opDag.reduceOpPos.toNat]? = some g →
    g.isScalarOp = false ∧ g.inHolders = []
  copyIn : s.opDag.reduceOpPos = 1 → ∀ f, s.opDag.funList.head? = some f →
    f.fn.isCopyInOp = true ∧ f.inFuns = [] ∧ f.inHolders.length = 1

end ReduceSch

/-! ## The place by the id -/

/-- Buffers of `narrow` bytes, the first `n` of them, then wide ones. -/
def placeOf (n narrow wide id : Nat) : Nat :=
  if id < n then id * narrow else n * narrow + (id - n) * wide

section Place

variable {n narrow wide p id : Nat}

theorem placeOf_succ : placeOf n narrow wide (id + 1) =
    placeOf n narrow wide id + (if id < n then narrow else wide) := by
  unfold placeOf
  by_cases h : id + 1 < n
  · rw [if_pos h, if_pos (by omega), if_pos (by omega), Nat.succ_mul]
  · by_cases h' : id < n
    · rw [if_neg h, if_pos h', if_pos h', show n = id + 1 by omega, Nat.sub_self, Nat.zero_mul,
        Nat.add_zero, Nat.succ_mul]
    · rw [if_neg h, if_neg h', if_neg h', Nat.succ_sub (by omega), Nat.succ_mul, Nat.add_assoc]

theorem placeOf_zero : placeOf n narrow wide 0 = 0 := by
  unfold placeOf
  split
  next => exact Nat.zero_mul _
  next => rw [show n = 0 by omega, Nat.zero_mul, Nat.sub_self, Nat.zero_mul]

/-- The same in two halves, the second one behind the place of `p`. -/
def halvesOf (n p narrow wide id : Nat) : Nat :=
  if p < id then placeOf n narrow wide p + placeOf n narrow wide (id - p)
  else placeOf n narrow wide id

theorem halvesOf_of_le (h : p ≤ id) : halvesOf n p narrow wide id =
    placeOf n narrow wide p + placeOf n narrow wide (id - p) := by
  unfold halvesOf
  split
  next => rfl
  next => rw [show id = p by omega, Nat.sub_self, placeOf_zero, Nat.add_zero]

theorem halvesOf_succ : halvesOf n p narrow wide (id + 1) = halvesOf n p narrow wide id +
    (if id < n ∧ id < p ∨ (p ≤ id ∧ id < p + n) then narrow else wide) := by
  by_cases h : p ≤ id
  · rw [halvesOf_of_le h, halvesOf_of_le (Nat.le_succ_of_le h), Nat.succ_sub h, placeOf_succ,
      Nat.add_assoc]
    refine congrArg _ (congrArg _ (if_congr ?_ rfl rfl))
    omega
  · unfold halvesOf
    rw [if_neg (by omega), if_neg (by omega), placeOf_succ]
    refine congrArg _ (if_congr ?_ rfl rfl)
    omega

theorem halvesOf_mono {id' : Nat} (h : id ≤ id') :
    halvesOf n p narrow wide id ≤ halvesOf n p narrow wide id' := by
  refine monotone_nat_of_le_succ (fun k => ?_) h
  rw [halvesOf_succ]
  omega

end Place

theorem toInt32_natCast {n : Nat} (h : n < 2 ^ 31) : toInt32 n = n := int32_natCast h

theorem toInt32_add (x y : Int) : toInt32 (toInt32 x + y) = toInt32 (x + y) :=
  Int.bmod_add_bmod

namespace ReduceSch

variable {s : ReduceSch}

/-- The place of an id, before it is cut to 32 bits. -/
def placeOfId (s : ReduceSch) (id : Nat) : Nat :=
  let place := placeOf s.preMte2Num s.basicBlock s.wideBlock
  if s.pongOffset < id then place s.opDag.preCounts.pongOffset + place (id - s.pongOffset)
  else place id

/-- The place of a buffer in front of the reduction, by its id. -/
theorem allocTensorAux_eq {pos id : Nat} (hpos : pos < s.opDag.reduceOpPos)
    (hratio : 1 ≤ s.ratio) : s.allocTensorAux pos id = toInt32 (s.placeOfId id) := by
  obtain ⟨ratio, hr⟩ := Int.eq_ofNat_of_zero_le (Int.le_trans (by decide) hratio)
  have hwide : s.wideBlock = s.basicBlock * ratio := by
    unfold wideBlock
    rw [hr, Int.toNat_natCast]
  -- behind those for copying in, the place is the same for both kinds
  have hinner : ∀ n : Nat, placeOf s.preMte2Num s.basicBlock (s.basicBlock * ratio) n =
      if n < s.preMte2Num then n * s.basicBlock
      else if n < s.preMte2Num + s.preMte3Num then
        s.preMte2Num * s.basicBlock + (n - s.preMte2Num) * s.basicBlock * ratio
      else s.preMte2Num * s.basicBlock + s.preMte3Num * s.basicBlock * ratio +
        (n - s.preMte2Num - s.preMte3Num) * s.basicBlock * ratio := by
    intro n
    unfold placeOf
    split
    next => rfl
    next h =>
      split
      next => ring
      next h' =>
        obtain ⟨k, rfl⟩ := Nat.exists_eq_add_of_le (Nat.le_of_not_lt h')
        rw [show s.preMte2Num + s.preMte3Num + k - s.preMte2Num = s.preMte3Num + k by omega,
          Nat.add_sub_cancel_left]
        ring
  have hpong : (placeOf s.preMte2Num s.basicBlock (s.basicBlock * ratio)
      s.opDag.preCounts.pongOffset : Int) = s.preMte2Num * s.basicBlock +
        (s.preMte3Num + s.preTempCalcNum : Nat) * s.basicBlock * ratio := by
    unfold placeOf BufferCounts.pongOffset
    rw [if_neg (by unfold preMte2Num; omega)]
    unfold preMte2Num preMte3Num preTempCalcNum
    rw [Nat.add_assoc, Nat.add_sub_cancel_left]
    push_cast
    ring
  unfold allocTensorAux placeOfId
  rw [if_pos hpos, hr, hwide]
  dsimp only
  rw [← hpong]
  by_cases h : s.pongOffset < id
  · rw [if_pos h, if_pos h, if_pos h, Nat.cast_add, hinner (id - s.pongOffset)]
    split
    next => rw [toInt32_add, Nat.cast_mul]
    next =>
      split
      next =>
        rw [add_assoc, toInt32_add]
        push_cast
        rfl
      next =>
        rw [add_assoc, add_assoc, toInt32_add, add_assoc (s.preMte2Num * s.basicBlock)]
        push_cast
        rfl
  · rw [if_neg h, if_neg h, if_neg h, hinner id]
    split
    next => rw [zero_add, Nat.cast_mul]
    next =>
      split
      next =>
        rw [zero_add]
        push_cast
        rfl
      next =>
        rw [zero_add]
        push_cast
        rfl

/-- The bytes that `Init` reserves, before the number is cut to 32 bits. -/
def reserved (s : ReduceSch) : Nat :=
  s.basicBlock * s.getPreMte2Num + s.wideBlock * (s.getPreMte3Num + s.preTempCalcNum)

theorem preBufSize_eq (hratio : 1 ≤ s.ratio) (hfit : s.reserved < 2 ^ 31) :
    s.preBufSize = s.reserved := by
  rw [← toInt32_natCast hfit]
  unfold preBufSize reserved wideBlock
  push_cast
  rw [Int.toNat_of_nonneg (by omega)]

/-- What is reserved and all places are in the range of `int32_t`. -/
def Fits (s : ReduceSch) (preBufferIds : List Int × List Int) : Prop :=
  s.reserved < 2 ^ 31 ∧ ∀ id, s.IsPreBufId preBufferIds id → s.placeOfId id < 2 ^ 31

/-! ## Nodes between the copy in and the reduction -/

variable {ids : List Int × List Int}

theorem getPreBufId_cases {id : Nat} (h : s.IsPreBufId ids id) :
    ∃ i : Nat, (i < 2 ∨ i < s.opDag.reduceOpPos.toNat ∧ s.opDag.reduceOpPos ≠ 1) ∧
      (id = wordOf 8 (ids.1.getD i (-1)) ∨ id = wordOf 8 (ids.2.getD i (-1))) := by
  obtain ⟨isStageOne, pos, pingPong, idx, ⟨hpos, -, hidx⟩, rfl⟩ := h
  have hcol : pos < 2 ∨ pos < s.opDag.reduceOpPos.toNat ∧ s.opDag.reduceOpPos ≠ 1 := by omega
  unfold getPreBufId
  dsimp only
  split
  next => exact ⟨pos, hcol, Or.inl rfl⟩
  next =>
    split
    next =>
      split
      next => exact ⟨idx, Or.inl hidx, Or.inl rfl⟩
      next => exact ⟨idx, Or.inl hidx, Or.inr rfl⟩
    next =>
      split
      next => exact ⟨pos, hcol, Or.inl rfl⟩
      next => exact ⟨pos, hcol, Or.inr rfl⟩

/-- The ids in front of the reduction are below the number of buffers there. -/
theorem isPreBufId_lt (hdag : s.IsReduceDag)
    (hids : s.opDag.getReduceBufferIds = .ok ids) (hpos : s.opDag.reduceOpPos ≠ 1) :
    (s.preMte2Num + s.preMte3Num) * 2 + s.preTempCalcNum ≤ 32 ∧ ∀ id, s.IsPreBufId ids id →
      id < (s.preMte2Num + s.preMte3Num) * 2 + s.preTempCalcNum := by
  have hfirst := hdag.reduceOpPos
  obtain ⟨g, hg, -⟩ := DagSch.reduceOpPos_spec hfirst
  unfold DagSch.getReduceBufferIds at hids
  rw [if_neg (fun h => hpos h.1)] at hids
  have hfuns : s.opDag.preReduceNodeInfo.funList =
      s.opDag.funList.take (s.opDag.reduceOpPos + 1).toNat := by
    unfold DagSch.preReduceNodeInfo
    rw [if_pos hfirst]
    exact DagSch.vecPreReduceNodes_eq
  have hok : bufferIdsAt s.opDag.preLevel s.opDag.preCounts true false
      s.opDag.preReduceNodeInfo.funList = .ok (ids.1, ids.2) := hids
  rw [hfuns] at hok
  have hcount : (s.preMte2Num + s.preMte3Num) * 2 + s.preTempCalcNum ≤ 32 := (bufferIdsAt_ok hok).1
  refine ⟨hcount, fun id hid => ?_⟩
  obtain ⟨i, hi, hid⟩ := getPreBufId_cases hid
  have hlt : i < s.opDag.reduceOpPos.toNat := by omega
  have hlen := (List.getElem?_eq_some_iff.mp hg).1
  have hget : s.opDag.funList[i]? = some _ :=
    getElem?_eq_getElem (hlt.trans hlen)
  have htakes := hdag.takesBuffer _ (mem_of_getElem? ((getElem?_take_of_lt hlt).trans hget))
  have hlt' : i < (s.opDag.reduceOpPos + 1).toNat := by omega
  obtain ⟨a, b, ha, hb, ha', hb'⟩ := reduceBufferIds_plain hok
    ((getElem?_take_of_lt hlt').trans hget) htakes
  have hcounts : 2 * (s.opDag.preCounts.mte2 + s.opDag.preCounts.mte3) + s.opDag.preCounts.temp =
      (s.preMte2Num + s.preMte3Num) * 2 + s.preTempCalcNum := by
    rw [Nat.mul_comm]
    rfl
  rw [getD_eq_getElem?_getD, getD_eq_getElem?_getD, ha, hb] at hid
  rcases hid with rfl | rfl
  · rw [Option.getD_some, wordOf_natCast (by omega)]
    omega
  · rw [Option.getD_some, wordOf_natCast (by omega)]
    omega

theorem apart_of_steps (place : Nat → Nat) {n : Nat}
    (hsize : s.preBufSize.toNat = place n) (hmono : Monotone place)
    (hids : ∀ id, s.IsPreBufId ids id → id < n ∧
      (s.preBuffer id).start = place id ∧ place id + (s.preBuffer id).len ≤ place (id + 1)) :
    s.PreBuffersApart ids := by
  have hnext : ∀ id id', s.IsPreBufId ids id → s.IsPreBufId ids id' → id < id' →
      ∀ i, (s.preBuffer id).Has i → ¬ (s.preBuffer id').Has i := by
    intro id id' hid hid' hlt i
    obtain ⟨-, hstart, hend⟩ := hids id hid
    obtain ⟨-, hstart', -⟩ := hids id' hid'
    have hle := hmono (Nat.succ_le_of_lt hlt)
    unfold Span.Has
    rw [Nat.succ_eq_add_one] at hle
    omega
  refine ⟨fun id hid => ?_, fun id id' hid hid' hne i hi hi' => ?_⟩
  · obtain ⟨hlt, hstart, hend⟩ := hids id hid
    have hle := hmono (Nat.succ_le_of_lt hlt)
    rw [Nat.succ_eq_add_one] at hle
    rw [Span.inside_iff, hsize, hstart]
    omega
  · rcases Nat.lt_or_gt_of_ne hne with hlt | hgt
    · exact hnext id id' hid hid' hlt i hi hi'
    · exact hnext id' id hid' hid hgt i hi' hi

/-- If the reduction is not the second function, the buffers are apart. -/
theorem preBuffersApart_of_later (hdag : s.IsReduceDag)
    (hids : s.opDag.getReduceBufferIds = .ok ids) (hratio : 1 ≤ s.ratio) (hfit : s.Fits ids)
    (hpos : s.opDag.reduceOpPos ≠ 1) : s.PreBuffersApart ids := by
  obtain ⟨hcount, hlt⟩ := isPreBufId_lt hdag hids hpos
  have hP : s.opDag.preCounts.pongOffset = s.preMte2Num + s.preMte3Num + s.preTempCalcNum := rfl
  have hp : s.pongOffset = s.opDag.preCounts.pongOffset := by
    unfold pongOffset
    rw [hP]
    omega
  have hhalves : s.placeOfId =
      halvesOf s.preMte2Num s.opDag.preCounts.pongOffset s.basicBlock s.wideBlock := by
    funext id
    unfold placeOfId halvesOf
    rw [hp]
  refine apart_of_steps s.placeOfId
    (n := (s.preMte2Num + s.preMte3Num) * 2 + s.preTempCalcNum) ?_ ?_ fun id hid =>
      ⟨hlt id hid, ?_, ?_⟩
  · -- the halves end with what is reserved
    rw [preBufSize_eq hratio hfit.1, Int.toNat_natCast, hhalves, halvesOf_of_le (by omega)]
    have hwide : ∀ k, placeOf s.preMte2Num s.basicBlock s.wideBlock (s.preMte2Num + k) =
        s.preMte2Num * s.basicBlock + k * s.wideBlock := by
      intro k
      unfold placeOf
      rw [if_neg (by omega), Nat.add_sub_cancel_left]
    rw [show (s.preMte2Num + s.preMte3Num) * 2 + s.preTempCalcNum - s.opDag.preCounts.pongOffset =
      s.preMte2Num + s.preMte3Num by omega, hP, Nat.add_assoc, hwide, hwide]
    unfold reserved getPreMte2Num getPreMte3Num
    rw [if_neg hpos]
    ring
  · rw [hhalves]
    exact fun _ _ h => halvesOf_mono h
  · exact (allocTensorAux_eq hdag.reduceOpPos hratio).trans (toInt32_natCast (hfit.2 id hid))
  · rw [hhalves, halvesOf_succ]
    refine Nat.le_of_eq (congrArg _ ?_)
    unfold preBuffer IsCopyInBuffer
    dsimp only
    refine if_congr ?_ rfl rfl
    omega

/-! ## The reduction behind the copy in -/

theorem preCounts_of_first (hdag : s.IsReduceDag) (hpos : s.opDag.reduceOpPos = 1)
    (hlvl : s.opDag.preLevel ≠ .level0) : s.preMte2Num = 1 ∧ s.preMte3Num = 0 := by
  obtain ⟨g, hg, -⟩ := DagSch.reduceOpPos_spec hdag.reduceOpPos
  obtain ⟨hscalarG, hholdersG⟩ := hdag.reduceOp g hg
  rw [hpos] at hg
  -- the first function copies in, the second reduces
  obtain ⟨f, rest, hfuns⟩ : ∃ f rest, s.opDag.funList = f :: g :: rest := by
    match hl : s.opDag.funList, hg with
    | f :: g' :: rest, hg => exact ⟨f, rest, by rw [Option.some.inj hg]⟩
  obtain ⟨hcopyIn, hinFuns, hlen⟩ := hdag.copyIn hpos f (by rw [hfuns]; rfl)
  obtain ⟨h, hh⟩ := length_eq_one_iff.mp hlen
  have hscalarF : f.isScalarOp = false :=
    (hdag.takesBuffer f (by rw [hpos, hfuns]; exact mem_cons_self)).1
  have hdup : f.fn.isDuplicateOp = false := by
    cases hfn : f.fn <;> simp_all [VecFun.isCopyInOp, VecFun.isDuplicateOp]
  have hscalar : h.isInScalar = false := by
    refine Bool.eq_false_iff.mpr fun hscalar => ?_
    have hall := mt Bind.isScalarOp_iff.mpr (by rw [hscalarF]; exact Bool.false_ne_true)
    refine hall ⟨?_, ?_, hdup⟩
    · unfold Bind.inScalarHolders
      rw [hh, filter_cons_of_pos hscalar, filter_nil]
    · unfold Bind.inScalarFuns
      rw [hinFuns]
      rfl
  have hnode : s.opDag.preReduceNodeInfo = ⟨[f, g], [g], false⟩ := by
    unfold DagSch.preReduceNodeInfo
    rw [if_pos hdag.reduceOpPos, DagSch.vecPreReduceNodes_eq, hpos, hfuns]
    rfl
  have hholders : s.opDag.preReduceNodeInfo.inHolders = [h] := by
    rw [hnode]
    unfold DagNodeInfo.inHolders inHolderAux inHolderAux
    rw [hh, hholdersG]
    rfl
  have hin : s.opDag.preReduceNodeInfo.inputSizeWoScalar = 1 := by
    unfold DagNodeInfo.inputSizeWoScalar DagNodeInfo.inScalarHolders
    rw [hholders, filter_cons_of_neg (by rw [hscalar]; exact Bool.false_ne_true)]
    rfl
  constructor
  · exact (if_neg hlvl).trans hin
  · refine (if_neg hlvl).trans (if_pos ?_)
    rw [hin, hnode]
    unfold DagNodeInfo.scalarOpNodes
    dsimp only
    rw [filter_cons_of_neg (by rw [hscalarF]; exact Bool.false_ne_true),
      filter_cons_of_neg (by rw [hscalarG]; exact Bool.false_ne_true)]
    rfl

theorem isPreBufId_table (hpos : s.opDag.reduceOpPos = 1) {id : Nat} :
    s.IsPreBufId preReduceOnlyCopyInBufferId id ↔ id < 4 := by
  constructor
  · intro hid
    obtain ⟨i, hi, hid⟩ := getPreBufId_cases hid
    have hlt : i < 2 := by omega
    interval_cases i
    · rcases hid with rfl | rfl <;> decide
    · rcases hid with rfl | rfl <;> decide
  · intro hid
    have hget : ∀ pp idx, pp < 2 → idx < 2 →
        s.getPreBufId preReduceOnlyCopyInBufferId true 0 pp idx = 2 * pp + idx := by
      intro pp idx hpp hidx
      unfold getPreBufId
      dsimp only
      rw [if_neg (by decide), if_pos (Or.inl hpos)]
      interval_cases pp <;> interval_cases idx <;> decide
    refine ⟨true, 0, id / 2, id % 2, ⟨by rw [hpos]; decide, by omega, by omega⟩, ?_⟩
    rw [hget _ _ (by omega) (by omega)]
    omega

/-- The places of the buffers, with one for the copy. -/
theorem placeOfId_table (hmte2 : s.preMte2Num = 1) (hmte3 : s.preMte3Num = 0) (id : Nat) :
    s.placeOfId id =
      if s.pongOffset < id then
        s.basicBlock + s.wideBlock * s.preTempCalcNum +
          (s.basicBlock + (id - s.pongOffset - 1) * s.wideBlock)
      else if id = 0 then 0 else s.basicBlock + (id - 1) * s.wideBlock := by
  -- only the first buffer is of the basic size
  have hplace : ∀ k, placeOf s.preMte2Num s.basicBlock s.wideBlock k =
      if k = 0 then 0 else s.basicBlock + (k - 1) * s.wideBlock := by
    intro k
    unfold placeOf
    rw [hmte2]
    by_cases hk : k = 0
    · rw [if_pos (by omega), if_pos hk, hk, Nat.zero_mul]
    · rw [if_neg (by omega), if_neg hk, Nat.one_mul]
  have hP : s.opDag.preCounts.pongOffset = 1 + s.preTempCalcNum := by
    unfold BufferCounts.pongOffset preTempCalcNum
    unfold preMte2Num at hmte2
    unfold preMte3Num at hmte3
    omega
  have hbase : placeOf s.preMte2Num s.basicBlock s.wideBlock s.opDag.preCounts.pongOffset =
      s.basicBlock + s.wideBlock * s.preTempCalcNum := by
    rw [hplace, hP, if_neg (by omega), Nat.add_sub_cancel_left, Nat.mul_comm]
  unfold placeOfId
  dsimp only
  rw [hbase]
  split
  next h => rw [hplace, if_neg (by omega)]
  next => exact hplace id

def PreBuffersCondition (s : ReduceSch) : Prop :=
  s.opDag.reduceOpPos ≠ 1 ∨ s.basicBlock = 0 ∨ 2 ≤ s.pongOffset ∨ s.pongOffset = 1 ∧ s.ratio = 1

theorem reserved_table (hpos : s.opDag.reduceOpPos = 1) (hmte2 : s.preMte2Num = 1)
    (hmte3 : s.preMte3Num = 0) :
    s.reserved = 4 * s.basicBlock + s.wideBlock * s.preTempCalcNum := by
  unfold reserved getPreMte2Num getPreMte3Num
  rw [if_pos hpos, hmte2, hmte3, Nat.zero_mul, Nat.zero_add, Nat.one_mul, Nat.mul_comm]

theorem steps_table (hpos : s.opDag.reduceOpPos = 1) (hmte2 : s.preMte2Num = 1)
    (hmte3 : s.preMte3Num = 0) (hratio : 1 ≤ s.ratio)
    (hcond : 2 ≤ s.pongOffset ∨ s.pongOffset = 1 ∧ s.ratio = 1) :
    (∀ id < 3, s.placeOfId id + s.basicBlock ≤ s.placeOfId (id + 1)) ∧
      s.placeOfId 3 + s.basicBlock ≤ s.reserved := by
  have hwide : s.basicBlock ≤ s.wideBlock := by
    unfold wideBlock
    exact Nat.le_mul_of_pos_right _ (by omega)
  have hq : s.pongOffset = (1 + s.preTempCalcNum) % 2 ^ 8 := by
    unfold pongOffset
    rw [hmte2, hmte3]
  have htemp : ∀ k, k + 1 ≤ s.pongOffset → s.wideBlock * k ≤ s.wideBlock * s.preTempCalcNum :=
    fun k hk => Nat.mul_le_mul_left _ (by omega)
  rw [reserved_table hpos hmte2 hmte3]
  rcases hcond with hcond | ⟨hone, hratio⟩
  · have h₁ := htemp 1 hcond
    by_cases htwo : s.pongOffset = 2
    · simp only [placeOfId_table hmte2 hmte3, htwo]
      refine ⟨fun id hid => ?_, ?_⟩
      · interval_cases id <;> simp <;> omega
      · simp
        omega
    · -- no id is behind the offset
      have h₂ := htemp 2 (by omega)
      have hplace : ∀ id ≤ 3, s.placeOfId id =
          if id = 0 then 0 else s.basicBlock + (id - 1) * s.wideBlock := fun id hid => by
        rw [placeOfId_table hmte2 hmte3, if_neg (by omega)]
      refine ⟨fun id hid => ?_, ?_⟩
      · rw [hplace id (by omega), hplace (id + 1) hid]
        interval_cases id <;> simp <;> omega
      · rw [hplace 3 (by decide), if_neg (by decide)]
        omega
  · have hsame : s.wideBlock = s.basicBlock := by
      unfold wideBlock
      rw [hratio]
      exact Nat.mul_one _
    simp only [placeOfId_table hmte2 hmte3, hone, hsame]
    refine ⟨fun id hid => ?_, ?_⟩
    · interval_cases id
      · simp
      · simp
      · simp
        omega
    · simp
      omega

/-- Where the reduction follows the copy in, the buffers are apart and inside for an empty
block, with buffers for temporaries, or with types that are all as wide as the input. -/
theorem preBuffersApart_iff {ids : List Int × List Int} (hdag : s.IsReduceDag)
    (hids : s.opDag.getReduceBufferIds = .ok ids) (hlvl : s.opDag.preLevel ≠ .level0)
    (hratio : 1 ≤ s.ratio) (hfit : s.Fits ids) :
    s.PreBuffersApart ids ↔ s.PreBuffersCondition := by
  by_cases hpos : s.opDag.reduceOpPos = 1
  case neg =>
    exact iff_of_true (preBuffersApart_of_later hdag hids hratio hfit hpos) (Or.inl hpos)
  obtain ⟨hmte2, hmte3⟩ := preCounts_of_first hdag hpos hlvl
  obtain rfl : preReduceOnlyCopyInBufferId = ids := by
    obtain ⟨g, hg, -⟩ := DagSch.reduceOpPos_spec hdag.reduceOpPos
    unfold DagSch.getReduceBufferIds at hids
    have hcopyIn : s.opDag.vecPreReduceNodes.head?.any (·.fn.isCopyInOp) = true := by
      rw [DagSch.vecPreReduceNodes_eq, hpos]
      rw [hpos] at hg
      match hl : s.opDag.funList, hg with
      | f :: g' :: rest, hg => exact (hdag.copyIn hpos f (by rw [hl]; rfl)).1
    rw [if_pos ⟨hpos, hcopyIn⟩] at hids
    exact Except.ok.inj hids
  have hlen : ∀ id, (s.preBuffer id).len = s.basicBlock := fun id => if_pos (Or.inl hpos)
  have hstart : ∀ id < 4, (s.preBuffer id).start = s.placeOfId id := fun id hid =>
    (allocTensorAux_eq hdag.reduceOpPos hratio).trans
      (toInt32_natCast (hfit.2 id ((isPreBufId_table hpos).mpr hid)))
  have hsize : s.preBufSize.toNat = s.reserved := by
    rw [preBufSize_eq hratio hfit.1, Int.toNat_natCast]
  unfold PreBuffersCondition
  rw [or_iff_right (not_not_intro hpos)]
  constructor
  · -- the last id is inside only under the condition
    intro h
    have hlast := h.1 3 ((isPreBufId_table hpos).mpr (by decide))
    rw [Span.inside_iff, hlen, hstart 3 (by decide), hsize, reserved_table hpos hmte2 hmte3,
      placeOfId_table hmte2 hmte3] at hlast
    refine or_iff_not_imp_left.mpr fun hblock => ?_
    obtain ⟨-, hlast⟩ := hlast.resolve_left hblock
    refine (Nat.lt_or_ge s.pongOffset 2).symm.imp id fun hlt => ?_
    rw [if_pos (by omega)] at hlast
    have hle : (2 - s.pongOffset) * s.wideBlock ≤ s.basicBlock := by
      rw [show 3 - s.pongOffset - 1 = 2 - s.pongOffset by omega] at hlast
      omega
    unfold wideBlock at hle
    have hone : (2 - s.pongOffset) * s.ratio.toNat ≤ 1 := by
      refine Nat.le_of_mul_le_mul_left ?_ (Nat.pos_of_ne_zero hblock)
      rw [Nat.mul_one]
      refine Nat.le_trans (Nat.le_of_eq ?_) hle
      ring
    interval_cases s.pongOffset
    · omega
    · exact ⟨rfl, by omega⟩
  · intro hcond
    by_cases hblock : s.basicBlock = 0
    · have hnone : ∀ id i, ¬ (s.preBuffer id).Has i := by
        intro id i hi
        unfold Span.Has at hi
        rw [hlen, hblock] at hi
        omega
      exact ⟨fun id _ i hi => absurd hi (hnone id i), fun id _ _ _ _ i hi => absurd hi (hnone id i)⟩
    obtain ⟨hsteps, hend⟩ := steps_table hpos hmte2 hmte3 hratio (hcond.resolve_left hblock)
    have hnext : ∀ id, (if id < 4 then s.placeOfId id + s.basicBlock else s.reserved) ≤
        if id + 1 < 4 then s.placeOfId (id + 1) else s.reserved := by
      intro id
      by_cases hid : id < 3
      · rw [if_pos (by omega), if_pos (by omega)]
        exact hsteps id hid
      · rw [if_neg (show ¬ id + 1 < 4 by omega)]
        split
        next h =>
          rw [show id = 3 by omega]
          exact hend
        next => exact Nat.le_refl _
    refine apart_of_steps (fun id => if id < 4 then s.placeOfId id else s.reserved)
      (n := 4) (by rw [hsize, if_neg (by decide)]) (monotone_nat_of_le_succ fun id => ?_)
      fun id hid => ?_
    · refine Nat.le_trans ?_ (hnext id)
      split
      next => exact Nat.le_add_right _ _
      next => exact Nat.le_refl _
    · have hlt := (isPreBufId_table hpos).mp hid
      have hle := hnext id
      rw [if_pos hlt] at hle
      rw [hlen]
      exact ⟨hlt, by rw [if_pos hlt, hstart id hlt], by rw [if_pos hlt]; exact hle⟩

/-! ## The maximum of halves, cast to floats -/

section Maximum

private def f16 : Dag.CppType := ⟨0, 2⟩

private def f32 : Dag.CppType := ⟨1, 4⟩

private def copyInOf : Bind := .mk (.copyIn f16) (.holder (.inHolder 0 f16 .gm 0) .nil)

/-- The maximum, with so many buffers of its own. -/
private def maximumOf (temps : Nat) : Bind := .mk (.reduceOp 0 f16 temps) (.bind copyInOf .nil)

private def castOf (temps : Nat) : Bind := .mk (.compute 0 f32 0) (.bind (maximumOf temps) .nil)

private def copyOutOf (temps : Nat) : Bind :=
  .mk (.copyOut f32) (.holder (.outHolder 0 f32) (.bind (castOf temps) .nil))

private def maximumSch (temps : Nat) : ReduceSch where
  opDag := ⟨[copyInOf, maximumOf temps, castOf temps, copyOutOf temps], [copyOutOf temps], .level2⟩
  basicBlock := 16384
  resultBlock := 4096

private theorem maximumSch_isReduceDag {temps : Nat} (h : temps < 2) :
    (maximumSch temps).IsReduceDag where
  reduceOpPos := by interval_cases temps <;> decide
  takesBuffer := by interval_cases temps <;> decide
  reduceOp := by
    intro g hg
    obtain rfl : maximumOf temps = g := by
      interval_cases temps <;> exact Option.some.inj hg
    interval_cases temps <;> decide
  copyIn := by
    intro _ f hf
    obtain rfl : copyInOf = f := Option.some.inj hf
    decide

private theorem maximumSch_fits {temps : Nat} (h : temps < 2) :
    (maximumSch temps).Fits preReduceOnlyCopyInBufferId := by
  refine ⟨by interval_cases temps <;> decide +kernel, fun id hid => ?_⟩
  have hlt : id < 4 := by
    interval_cases temps <;> exact (isPreBufId_table (by decide)).mp hid
  interval_cases temps <;> interval_cases id <;> decide +kernel

/-- The last of the four ids gets the bytes from 64 KiB on, and 64 KiB are reserved. -/
theorem preBuffers_not_apart : (maximumSch 0).IsReduceDag ∧
    (maximumSch 0).opDag.getReduceBufferIds.toOption = some preReduceOnlyCopyInBufferId ∧
    ((maximumSch 0).opDag.bufLevel = .level2 ∧ (maximumSch 0).opDag.preLevel = .level2 ∧
      (maximumSch 0).ratio = 2) ∧
    (maximumSch 0).Fits preReduceOnlyCopyInBufferId ∧
    ((maximumSch 0).preBufSize = 65536 ∧ (maximumSch 0).preBuffer 3 = ⟨65536, 16384⟩) ∧
    ¬ (maximumSch 0).PreBuffersApart preReduceOnlyCopyInBufferId := by
  refine ⟨maximumSch_isReduceDag (by decide), by decide +kernel, by decide +kernel,
    maximumSch_fits (by decide), by decide +kernel, fun h => ?_⟩
  have hlast := h.1 3 ((isPreBufId_table (by decide)).mpr (by decide))
  exact absurd hlast (by decide +kernel)

/-- With a buffer of its own for the maximum the four ids have their places. -/
theorem preBuffersApart_iff_maximum :
    (maximumSch 1).PreBuffersApart preReduceOnlyCopyInBufferId ∧
      ¬ (maximumSch 0).PreBuffersApart preReduceOnlyCopyInBufferId :=
  ⟨(preBuffersApart_iff (maximumSch_isReduceDag (by decide)) rfl (by decide +kernel)
      (by decide +kernel) (maximumSch_fits (by decide))).mpr
      (Or.inr (Or.inr (Or.inl (by decide +kernel)))),
    fun h => absurd ((preBuffersApart_iff (maximumSch_isReduceDag (by decide)) rfl
      (by decide +kernel) (by decide +kernel) (maximumSch_fits (by decide))).mp h)
      (by unfold PreBuffersCondition; decide +kernel)⟩

end Maximum

end ReduceSch

end OpBase.Reduce
