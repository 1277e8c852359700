import OpBase.Reduce.SchUtil

/-!
# Combining the blocks of a reduction

`reduce_sch_aux.h` and `reduce_operator.h`. The blocks of one tile are cut at a power of two.
What stands behind the cut is laid over the first blocks element by element; then each block is
reduced to one element for each lane and goes into the cache, into the slot of its index,
together with what the slots below have.

A block is given by its elements, padded to the full length. The combination is any that is
associative and commutative; it need not have an identity, so the products are those of
`WithOne`. The cache is the memory behind its address, with whatever was there before.

> `linearComputeR_combines_iff`: up to 2³¹ blocks, and no more, each is read once and the slot
> that the result is read from has the combination of all of them.
-/

namespace OpBase.Reduce

open OpBase.Lib Finset

variable {α : Type} [CommSemigroup α]

/-! ## The cache -/

/-- `shape`: the lanes of a tile and the elements of each of them. -/
structure TileShape where
  dimA : Nat
  dimR : Nat

/-- `UpdateMask`: the lanes of the `i`-th register, of those that are left. -/
def updateMask (vLElems sreg i : Nat) : Nat := min vLElems (sreg - i * vLElems)

/-- One register of `DoCaching`: lane by lane it takes in the slots below `cacheID`. -/
def cachingRegister (vLElems : Nat) (shape : TileShape) (src : Nat → α) (cacheID i : Nat)
    (cache : Nat → α) : Nat → α :=
  let stride := ceilAlign shape.dimA vLElems
  let innerLoopTimes := cacheID % 2 ^ 16
  let innerLoopStride := stride % 2 ^ 32
  let cah := cacheID * stride + i * vLElems
  fun addr =>
    if cah ≤ addr ∧ addr < cah + updateMask vLElems (shape.dimA % 2 ^ 32) i then
      let lane := addr - cah
      (List.range innerLoopTimes).foldl
        (fun aReg j => aReg * cache (i * vLElems + j * innerLoopStride + lane))
        (src (i * vLElems + lane))
    else cache addr

/-- `DoCaching`, for the block with this index -/
def doCaching (vLElems : Nat) (shape : TileShape) (src : Nat → α) (index : Nat)
    (cache : Nat → α) : Nat → α :=
  let outerLoopTimes := ceilDiv shape.dimA vLElems % 2 ^ 16
  (List.range outerLoopTimes).foldl
    (fun cache i => cachingRegister vLElems shape src (getCacheID index) i cache) cache

/-! ## The blocks -/

/-- The fields that `SetIterRRange` sets. -/
structure BisectionRange where
  bisectionPos : Nat
  cacheCount : Nat
  bisectionTail : Nat

/-- There is nothing to set where the cut is not defined. -/
def setIterRRange (rCount : Nat) : Option BisectionRange :=
  (findNearestPower2 rCount).map fun pos =>
    { bisectionPos := pos
      cacheCount := calLog2 pos + 1
      bisectionTail := (rCount + 2 ^ 64 - pos) % 2 ^ 64 }

/-- The elements of a block, by lane and by position. -/
abbrev Block (α : Type) : Type := Nat → Nat → α

/-- `BisectionPreHandle`: two blocks become one, element by element. -/
def bisectionPreHandle (src0 src1 : Block α) : Block α := fun a r => src0 a r * src1 a r

/-- `ComputeAux`: each lane is reduced to one element. -/
def computeAux (shape : TileShape) (src : Block α) : Nat → α := fun a =>
  (List.range (shape.dimR - 1)).foldl (fun acc r => acc * src a (r + 1)) (src a 0)

/-- `PreReduce`: which block is read, and into which of the four buffers. -/
structure PreRead where
  rIndex : Nat
  idx : Nat
  pingPong : Nat

/-- What the loops of `LinearComputeR` hand on. -/
structure LinearState (α : Type) where
  reads : List PreRead
  cache : Nat → α
  idx : Nat

section Linear

variable (vLElems : Nat) (shape : TileShape) (block : Nat → Block α)

/-- A step of the first loop: a block and the one behind the cut. -/
def mergeStep (bisectionPos : Nat) (s : LinearState α) (i : Nat) : LinearState α :=
  let behind := (i + bisectionPos) % 2 ^ 64
  { reads := s.reads ++ [⟨i, s.idx, 0⟩, ⟨behind, s.idx, 1⟩]
    cache := doCaching vLElems shape
      (computeAux shape (bisectionPreHandle (block i) (block behind))) i s.cache
    idx := (s.idx + 1) &&& 1 }

/-- A step of the second loop; with all of R in one block the tiles take the buffers in turn. -/
def singleStep (fullR : Bool) (aIndex preIdx bisectionTail : Nat) (s : LinearState α) (i : Nat) :
    LinearState α :=
  let pingPong := if fullR then aIndex &&& 1 else (i - bisectionTail) &&& 1
  let idx := if fullR then (aIndex / 2) &&& 1 else (preIdx + (i - bisectionTail) / 2) &&& 1
  { reads := s.reads ++ [⟨i, idx, pingPong⟩]
    cache := doCaching vLElems shape (computeAux shape (block i)) i s.cache
    idx := idx }

def linearComputeR (range : BisectionRange) (fullR : Bool) (aIndex startIdx : Nat)
    (cache : Nat → α) : LinearState α :=
  let merged := (List.range range.bisectionTail).foldl
    (mergeStep vLElems shape block range.bisectionPos) ⟨[], cache, startIdx⟩
  (List.range' range.bisectionTail (range.bisectionPos - range.bisectionTail)).foldl
    (singleStep vLElems shape block fullR aIndex merged.idx range.bisectionTail) merged

end Linear

/-! ## Products -/

theorem coe_foldl_mul (f : Nat → α) (x : α) (n : Nat) :
    (((List.range n).foldl (fun acc j => acc * f j) x : α) : WithOne α) =
      x * ∏ j ∈ Finset.range n, (f j : WithOne α) := by
  induction n with
  | zero => rw [List.range_zero, List.foldl_nil, prod_range_zero, mul_one]
  | succ n ih =>
    rw [List.range_succ, List.foldl_append, List.foldl_cons, List.foldl_nil, WithOne.coe_mul, ih,
      prod_range_succ, mul_assoc]

theorem coe_computeAux {shape : TileShape} (hdimR : 0 < shape.dimR) (src : Block α) (a : Nat) :
    ((computeAux shape src a : α) : WithOne α) =
      ∏ r ∈ Finset.range shape.dimR, (src a r : WithOne α) := by
  unfold computeAux
  obtain ⟨n, hn⟩ : ∃ n, shape.dimR = n + 1 := ⟨shape.dimR - 1, by omega⟩
  rw [coe_foldl_mul (fun r => src a (r + 1)), hn, prod_range_succ', mul_comm]
  rfl

/-! ## One block -/

section Caching

variable {vLElems : Nat} {shape : TileShape}

/-- The counters of `DoCaching` hold the lanes in 32 bits, and the registers in 16. -/
def TileShape.Fits (shape : TileShape) (vLElems : Nat) : Prop :=
  shape.dimA + vLElems ≤ 2 ^ 32 ∧ ceilDiv shape.dimA vLElems < 2 ^ 16

theorem ceilAlign_spec {a b : Nat} (hb : 0 < b) (h : a + b ≤ 2 ^ 32) :
    a ≤ ceilAlign a b ∧ ceilAlign a b < 2 ^ 32 ∧ ceilAlign a b = ceilDiv a b * b := by
  have hmod : (a + b - 1) % 2 ^ 64 = a + b - 1 := Nat.mod_eq_of_lt (by omega)
  have hdiv := Nat.div_add_mod' (a + b - 1) b
  have hlt := Nat.mod_lt (a + b - 1) hb
  unfold ceilAlign ceilDiv
  rw [hmod]
  omega

/-- What a lane becomes. -/
def laneOf (stride : Nat) (src cache : Nat → α) (cacheID a : Nat) : α :=
  (List.range cacheID).foldl (fun acc j => acc * cache (j * stride + a)) (src a)

theorem laneOf_congr {stride cacheID a : Nat} {src cache cache' : Nat → α}
    (h : ∀ j < cacheID, cache (j * stride + a) = cache' (j * stride + a)) :
    laneOf stride src cache cacheID a = laneOf stride src cache' cacheID a := by
  unfold laneOf
  refine List.foldl_ext _ _ _ fun acc j hj => ?_
  rw [h j (List.mem_range.mp hj)]

variable {src cache : Nat → α} {cacheID stride : Nat}

section

variable (hsize : shape.Fits vLElems) (hv : 0 < vLElems)
  (hstride : ceilAlign shape.dimA vLElems = stride)
include hsize hv hstride

theorem cachingRegister_apply (hid : cacheID < 2 ^ 16) (i addr : Nat) :
    cachingRegister vLElems shape src cacheID i cache addr =
      if cacheID * stride + i * vLElems ≤ addr ∧
          addr < cacheID * stride + i * vLElems + min vLElems (shape.dimA - i * vLElems) then
        laneOf stride src cache cacheID (addr - cacheID * stride)
      else cache addr := by
  obtain ⟨-, hlt, -⟩ := ceilAlign_spec hv hsize.1
  have hdimA : shape.dimA < 2 ^ 32 := Nat.lt_of_lt_of_le (Nat.lt_add_of_pos_right hv) hsize.1
  unfold cachingRegister updateMask
  dsimp only
  rw [Nat.mod_eq_of_lt hdimA, Nat.mod_eq_of_lt hid, Nat.mod_eq_of_lt hlt, hstride]
  split
  next h =>
    have ha : i * vLElems + (addr - (cacheID * stride + i * vLElems)) =
        addr - cacheID * stride := by omega
    unfold laneOf
    rw [ha]
    refine List.foldl_ext _ _ _ fun acc j _ => ?_
    rw [← ha]
    exact congrArg (acc * cache ·) (by omega)
  next => rfl

/-- The first `n` registers: the lanes they have are done, all else is as before. -/
theorem registers_apply (hid : cacheID < 2 ^ 16) (n addr : Nat) :
    (List.range n).foldl (fun cache i => cachingRegister vLElems shape src cacheID i cache) cache
        addr =
      if cacheID * stride ≤ addr ∧ addr < cacheID * stride + min shape.dimA (n * vLElems) then
        laneOf stride src cache cacheID (addr - cacheID * stride)
      else cache addr := by
  obtain ⟨hle, -, -⟩ := ceilAlign_spec hv hsize.1
  rw [hstride] at hle
  induction n generalizing addr with
  | zero => rw [List.range_zero, List.foldl_nil, if_neg (by omega)]
  | succ n ih =>
    have hsucc : (n + 1) * vLElems = n * vLElems + vLElems := Nat.succ_mul n vLElems
    rw [List.range_succ, List.foldl_append, List.foldl_cons, List.foldl_nil,
      cachingRegister_apply hsize hv hstride hid]
    split
    next hin =>
      rw [if_pos (by omega)]
      refine laneOf_congr fun j hj => ?_
      -- the slots below end in front of this one
      have hslot : (j + 1) * stride ≤ cacheID * stride := Nat.mul_le_mul_right _ hj
      rw [Nat.succ_mul] at hslot
      rw [ih, if_neg (by omega)]
    next hout =>
      rw [ih]
      refine if_congr ?_ rfl rfl
      omega

/-- Caching block `index` writes the row that its trailing ones name, and folds the rows below into
it. -/
theorem doCaching_apply {index : Nat} (hindex : index < 2 ^ 63)
    {a : Nat} (ha : a < shape.dimA) (k : Nat) :
    doCaching vLElems shape src index cache (k * stride + a) =
      if k = trailingOnes index then laneOf stride src cache k a
      else cache (k * stride + a) := by
  obtain ⟨hle, -, hmul⟩ := ceilAlign_spec hv hsize.1
  have hid : getCacheID index = trailingOnes index := getCacheID_eq hindex
  have hid' : trailingOnes index ≤ 63 := trailingOnes_le_of_lt hindex
  unfold doCaching
  rw [Nat.mod_eq_of_lt hsize.2, registers_apply hsize hv hstride (by omega), ← hmul, hstride, hid]
  rw [hstride] at hle
  split
  next h =>
    have hk : k = trailingOnes index := by
      rcases Nat.lt_trichotomy k (trailingOnes index) with hlt | heq | hgt
      · have := Nat.mul_le_mul_right stride (Nat.succ_le_of_lt hlt)
        rw [Nat.succ_mul] at this
        omega
      · exact heq
      · have := Nat.mul_le_mul_right stride (Nat.succ_le_of_lt hgt)
        rw [Nat.succ_mul] at this
        omega
    rw [if_pos hk, ← hk, Nat.add_sub_cancel_left]
  next h =>
    rw [if_neg]
    rintro rfl
    omega

end

end Caching

/-! ## All blocks -/

section Run

variable {vLElems : Nat} {shape : TileShape} {block : Nat → Block α} {stride a : Nat}

/-- A lane of all the slots. -/
def slotsAt (stride a : Nat) (cache : Nat → α) : Nat → WithOne α := fun k =>
  cache (k * stride + a)

theorem slotsAt_doCaching (hsize : shape.Fits vLElems) (hv : 0 < vLElems)
    (hstride : ceilAlign shape.dimA vLElems = stride) {src cache : Nat → α} {index : Nat}
    (hindex : index < 2 ^ 63) (ha : a < shape.dimA) :
    slotsAt stride a (doCaching vLElems shape src index cache) =
      carry (slotsAt stride a cache) index (src a) := by
  funext k
  unfold slotsAt
  rw [doCaching_apply hsize hv hstride hindex ha]
  split
  next hk =>
    rw [hk, carry_self]
    unfold laneOf
    exact coe_foldl_mul (fun j => cache (j * stride + a)) (src a) _
  next hk => rw [carry_of_ne hk]

/-- The combination of one lane of a block. -/
def blockProd (shape : TileShape) (block : Nat → Block α) (a i : Nat) : WithOne α :=
  ∏ r ∈ Finset.range shape.dimR, (block i a r : WithOne α)

/-- What goes into the cache for a block: the block behind the cut is in it. -/
def mergedProd (shape : TileShape) (block : Nat → Block α) (range : BisectionRange) (a i : Nat) :
    WithOne α :=
  if i < range.bisectionTail then
    blockProd shape block a i * blockProd shape block a ((i + range.bisectionPos) % 2 ^ 64)
  else blockProd shape block a i

/-- The cache has the first `n` blocks. -/
def Holds (shape : TileShape) (block : Nat → Block α) (range : BisectionRange) (stride : Nat)
    (cache : Nat → α) (n : Nat) (s : LinearState α) : Prop :=
  ∀ a < shape.dimA, slotsAt stride a s.cache =
    accumulate (mergedProd shape block range a) (slotsAt stride a cache) n

variable {range : BisectionRange} {cache : Nat → α} {s : LinearState α} {rCount : Nat}

/-- A loop over `n` indices from `start` on. -/
theorem foldl_range'_spec {σ : Type} {step : σ → Nat → σ} {P : Nat → σ → Prop} {start n : Nat}
    (hstep : ∀ i s, start ≤ i → i < start + n → P i s → P (i + 1) (step s i)) {s : σ}
    (h : P start s) : P (start + n) ((List.range' start n).foldl step s) := by
  induction n with
  | zero => exact h
  | succ n ih =>
    rw [List.range'_concat, List.foldl_append, List.foldl_cons, List.foldl_nil, Nat.one_mul]
    exact hstep (start + n) _ (Nat.le_add_right _ _) (by omega)
      (ih fun i s hi hlt => hstep i s hi (by omega))

/-- The blocks in the order in which they are read. -/
def readOrder (range : BisectionRange) : List Nat :=
  (List.range range.bisectionTail).flatMap (fun i => [i, (i + range.bisectionPos) % 2 ^ 64]) ++
    List.range' range.bisectionTail (range.bisectionPos - range.bisectionTail)

theorem foldl_mergeStep_reads (l : List Nat) (s : LinearState α) :
    (l.foldl (mergeStep vLElems shape block range.bisectionPos) s).reads.map (·.rIndex) =
      s.reads.map (·.rIndex) ++ l.flatMap fun i => [i, (i + range.bisectionPos) % 2 ^ 64] := by
  induction l generalizing s with
  | nil => exact (List.append_nil _).symm
  | cons i l ih =>
    rw [List.foldl_cons, ih, List.flatMap_cons, ← List.append_assoc]
    unfold mergeStep
    dsimp only
    rw [List.map_append]
    rfl

theorem foldl_singleStep_reads {fullR : Bool} {aIndex preIdx : Nat} (l : List Nat)
    (s : LinearState α) :
    (l.foldl (singleStep vLElems shape block fullR aIndex preIdx range.bisectionTail)
        s).reads.map (·.rIndex) = s.reads.map (·.rIndex) ++ l := by
  induction l generalizing s with
  | nil => exact (List.append_nil _).symm
  | cons i l ih =>
    rw [List.foldl_cons, ih, ← List.singleton_append, ← List.append_assoc]
    unfold singleStep
    dsimp only
    rw [List.map_append]
    rfl

theorem linearComputeR_reads (fullR : Bool) (aIndex startIdx : Nat) :
    (linearComputeR vLElems shape block range fullR aIndex startIdx cache).reads.map (·.rIndex) =
      readOrder range := by
  unfold linearComputeR
  dsimp only
  rw [foldl_singleStep_reads, foldl_mergeStep_reads]
  rfl

theorem readOrder_perm (htail : range.bisectionTail ≤ range.bisectionPos)
    (hpos : range.bisectionPos ≤ 2 ^ 31) :
    (readOrder range).Perm (List.range (range.bisectionPos + range.bisectionTail)) := by
  have hpairs := List.flatMap_append_perm (List.range range.bisectionTail) (fun i => [i])
    fun i => [(i + range.bisectionPos) % 2 ^ 64]
  rw [List.flatMap_singleton', ← List.map_eq_flatMap] at hpairs
  obtain ⟨rest, hrest⟩ := Nat.exists_eq_add_of_le htail
  have hfront : List.range range.bisectionPos =
      List.range range.bisectionTail ++ List.range' range.bisectionTail rest := by
    rw [hrest, List.range_eq_range', List.range_eq_range', ← List.range'_append_1, Nat.zero_add]
  unfold readOrder
  refine (hpairs.symm.append_right _).trans ?_
  rw [List.range_add, hfront, hrest, Nat.add_sub_cancel_left, List.append_assoc, List.append_assoc]
  refine List.Perm.append_left _ ?_
  rw [← hrest]
  refine List.perm_append_comm.trans (List.Perm.append_left _ (List.Perm.of_eq ?_))
  refine List.map_congr_left fun i hi => ?_
  have hlt := List.mem_range.mp hi
  rw [Nat.mod_eq_of_lt (by omega), Nat.add_comm]

/-- What the cut of up to 2³¹ blocks is like. -/
theorem setIterRRange_spec (hpos : 1 ≤ rCount) (hle : rCount ≤ 2 ^ 31) :
    ∃ range m, setIterRRange rCount = some range ∧ range.bisectionPos = 2 ^ m ∧
      range.cacheCount = m + 1 ∧ 2 ^ m ≤ 2 ^ 31 ∧ range.bisectionTail ≤ 2 ^ m ∧
      2 ^ m + range.bisectionTail = rCount := by
  obtain ⟨m, hm, hm', hlow, hhigh⟩ := findNearestPower2_spec hpos hle
  have htail : (rCount + 2 ^ 64 - 2 ^ m) % 2 ^ 64 = rCount - 2 ^ m := by omega
  refine ⟨_, m, congrArg (Option.map _) hm, rfl, congrArg (· + 1) (calLog2_two_pow m),
    Nat.pow_le_pow_right (by decide) (by omega), ?_⟩
  dsimp only
  rw [htail]
  omega

/-- Up to `2 ^ 31` the two halves read every block, and once. -/
theorem readOrder_range (hle : rCount ≤ 2 ^ 31) :
    ∃ range, setIterRRange rCount = some range ∧ (readOrder range).Perm (List.range rCount) := by
  rcases Nat.eq_zero_or_pos rCount with rfl | hpos
  · exact ⟨_, rfl, List.Perm.refl _⟩
  · obtain ⟨range, m, hset, hm, -, hle', htail, hsum⟩ := setIterRRange_spec hpos hle
    have hperm := readOrder_perm (hm ▸ htail) (hm ▸ hle')
    rw [hm, hsum] at hperm
    exact ⟨range, hset, hperm⟩

/-- Of more than 2³¹ blocks the first one is read twice: alone, and behind the 2³¹st one, where
the sum of its index and of the cut wraps round. -/
theorem readOrder_not_nodup (hgt : 2 ^ 31 < rCount) (hlt : rCount < 2 ^ 64)
    (hset : setIterRRange rCount = some range) : ¬(readOrder range).Nodup := by
  obtain ⟨pos, hpos, rfl⟩ := Option.map_eq_some_iff.mp hset
  rcases findNearestPower2_of_gt hgt hlt with hnone | ⟨hsome, hle⟩
  · rw [hnone] at hpos
    exact absurd hpos (by simp)
  obtain rfl := Option.some.inj (hsome.symm.trans hpos)
  obtain ⟨rest, hrest⟩ : ∃ rest, (rCount + 2 ^ 64 - (2 ^ 64 - 2 ^ 31)) % 2 ^ 64 =
      2 ^ 31 + (rest + 1) := ⟨rCount - 1, by omega⟩
  intro hnodup
  unfold readOrder at hnodup
  dsimp only at hnodup
  rw [hrest, List.range_add, List.flatMap_append] at hnodup
  refine (List.nodup_append.mp (List.nodup_append.mp hnodup).1).2.2 0 ?_ 0 ?_ rfl
  · exact List.mem_flatMap.mpr ⟨0, List.mem_range.mpr (by decide), List.mem_cons_self⟩
  · have hwrap : (0 : Nat) = (2 ^ 31 + (2 ^ 64 - 2 ^ 31)) % 2 ^ 64 := by decide
    exact List.mem_flatMap.mpr ⟨2 ^ 31, List.mem_map.mpr ⟨0, List.mem_range.mpr (Nat.succ_pos rest),
      Nat.add_zero _⟩, List.mem_cons_of_mem _ (List.mem_singleton.mpr hwrap)⟩

theorem prod_mergedProd {m : Nat} (hm : range.bisectionPos = 2 ^ m) (hle : 2 ^ m ≤ 2 ^ 31)
    (htail : range.bisectionTail ≤ 2 ^ m) (a : Nat) :
    ∏ i ∈ Finset.range (2 ^ m), mergedProd shape block range a i =
      ∏ i ∈ Finset.range (2 ^ m + range.bisectionTail), blockProd shape block a i := by
  obtain ⟨rest, hrest⟩ := Nat.exists_eq_add_of_le htail
  have hlow : ∀ i ∈ Finset.range range.bisectionTail, mergedProd shape block range a i =
      blockProd shape block a i * blockProd shape block a (2 ^ m + i) := fun i hi => by
    have hlt := Finset.mem_range.mp hi
    unfold mergedProd
    rw [if_pos hlt, hm, Nat.mod_eq_of_lt (by omega), Nat.add_comm]
  have hhigh : ∀ i ∈ Finset.range rest, mergedProd shape block range a (range.bisectionTail + i) =
      blockProd shape block a (range.bisectionTail + i) := fun i _ => if_neg (by omega)
  rw [prod_range_add _ (2 ^ m)]
  conv_lhs => rw [hrest, prod_range_add, prod_congr rfl hlow, prod_congr rfl hhigh]
  conv_rhs => rw [hrest, prod_range_add, ← hrest]
  rw [prod_mul_distrib, mul_right_comm]

section

variable (hsize : shape.Fits vLElems) (hv : 0 < vLElems) (hdimR : 0 < shape.dimR)
  (hstride : ceilAlign shape.dimA vLElems = stride)
include hsize hv hdimR hstride

theorem mergeStep_holds {i : Nat}
    (hi : i < range.bisectionTail) (hindex : i < 2 ^ 63)
    (h : Holds shape block range stride cache i s) :
    Holds shape block range stride cache (i + 1)
      (mergeStep vLElems shape block range.bisectionPos s i) := by
  intro a ha
  unfold mergeStep
  dsimp only
  rw [slotsAt_doCaching hsize hv hstride hindex ha, h a ha, accumulate_succ, coe_computeAux hdimR]
  unfold mergedProd blockProd bisectionPreHandle
  rw [if_pos hi, ← prod_mul_distrib]
  rfl

theorem singleStep_holds {fullR : Bool}
    {aIndex preIdx i : Nat} (hi : range.bisectionTail ≤ i) (hindex : i < 2 ^ 63)
    (h : Holds shape block range stride cache i s) :
    Holds shape block range stride cache (i + 1)
      (singleStep vLElems shape block fullR aIndex preIdx range.bisectionTail s i) := by
  intro a ha
  unfold singleStep
  dsimp only
  rw [slotsAt_doCaching hsize hv hstride hindex ha, h a ha, accumulate_succ, coe_computeAux hdimR]
  unfold mergedProd blockProd
  rw [if_neg (by omega)]

theorem linearComputeR_holds
    (hle : range.bisectionPos ≤ 2 ^ 63) (htail : range.bisectionTail ≤ range.bisectionPos)
    (block : Nat → Block α) (fullR : Bool) (aIndex startIdx : Nat) (cache : Nat → α) :
    Holds shape block range stride cache range.bisectionPos
      (linearComputeR vLElems shape block range fullR aIndex startIdx cache) := by
  have hinit : Holds shape block range stride cache 0 ⟨[], cache, startIdx⟩ := fun a _ => rfl
  have hmerged := foldl_range'_spec (n := range.bisectionTail)
    (fun i s _ hi (h : Holds shape block range stride cache i s) =>
      mergeStep_holds hsize hv hdimR hstride (by omega) (by omega) h) hinit
  rw [Nat.zero_add, ← List.range_eq_range'] at hmerged
  unfold linearComputeR
  dsimp only
  generalize (List.range range.bisectionTail).foldl _ _ = merged at *
  have hall := foldl_range'_spec (n := range.bisectionPos - range.bisectionTail)
    (fun i s hi hi' (h : Holds shape block range stride cache i s) =>
      (singleStep_holds hsize hv hdimR hstride hi (by omega) h :
        Holds shape block range stride cache (i + 1) (singleStep vLElems shape block fullR aIndex
          merged.idx range.bisectionTail s i))) hmerged
  rwa [Nat.add_sub_of_le htail] at hall

end

/-- Each block is read once, and the result has the combination of all, whatever was in the
cache before. -/
def Combines (vLElems : Nat) (shape : TileShape) (block : Nat → Block α) (rCount : Nat)
    (fullR : Bool) (aIndex startIdx : Nat) (cache : Nat → α) : Prop :=
  ∃ range, setIterRRange rCount = some range ∧
    ((linearComputeR vLElems shape block range fullR aIndex startIdx cache).reads.map
      (·.rIndex)).Perm (List.range rCount) ∧
    ∀ a < shape.dimA,
      ((linearComputeR vLElems shape block range fullR aIndex startIdx cache).cache
        ((range.cacheCount - 1) * ceilAlign shape.dimA vLElems + a) : WithOne α) =
      ∏ i ∈ Finset.range rCount, ∏ r ∈ Finset.range shape.dimR, (block i a r : WithOne α)

/-- Up to 2³¹ blocks are combined as they should be, and no more. -/
theorem linearComputeR_combines_iff (hpos : 1 ≤ rCount) (hlt : rCount < 2 ^ 64)
    (hsize : shape.Fits vLElems) (hv : 0 < vLElems) (hdimR : 0 < shape.dimR) (fullR : Bool)
    (aIndex startIdx : Nat) (cache : Nat → α) :
    Combines vLElems shape block rCount fullR aIndex startIdx cache ↔ rCount ≤ 2 ^ 31 := by
  constructor
  · rintro ⟨range, hset, hperm, -⟩
    rw [linearComputeR_reads] at hperm
    by_contra hgt
    exact readOrder_not_nodup (by omega) hlt hset (hperm.nodup_iff.mpr List.nodup_range)
  · intro hle
    obtain ⟨range, m, hset, hm, hcount, hle', htail, hsum⟩ := setIterRRange_spec hpos hle
    obtain ⟨range', hset', hperm⟩ := readOrder_range hle
    obtain rfl : range = range' := Option.some.inj (hset.symm.trans hset')
    refine ⟨range, hset, ?_, fun a ha => ?_⟩
    · rw [linearComputeR_reads]
      exact hperm
    · have hholds := linearComputeR_holds hsize hv hdimR rfl (by omega) (hm ▸ htail) block fullR
        aIndex startIdx cache
      have hslot := congrFun (hholds a ha) (range.cacheCount - 1)
      rw [hcount, Nat.add_sub_cancel] at hslot ⊢
      rw [hm, accumulate_two_pow, prod_mergedProd hm hle' htail, hsum] at hslot
      exact hslot

/-- Five blocks of one element are multiplied, the last one laid over the first. -/
theorem linearComputeR_combines_iff_five :
    Combines 64 ⟨1, 1⟩ (fun i _ _ => i + 2) 5 false 0 0 (fun _ => 7) ↔ 5 ≤ 2 ^ 31 :=
  linearComputeR_combines_iff (by decide) (by decide) ⟨by decide, by decide⟩ (by decide)
    (by decide) _ _ _ _

/-- One block more than 2³¹: the cut is at 2⁶⁴ - 2³¹. -/
theorem linearComputeR_wide :
    ¬Combines 64 ⟨1, 1⟩ (fun _ _ _ => (2 : Nat)) (2 ^ 31 + 1) false 0 0 (fun _ => 7) := by
  rintro ⟨range, hset, hperm, -⟩
  rw [linearComputeR_reads] at hperm
  exact readOrder_not_nodup (by decide) (by decide) hset (hperm.nodup_iff.mpr List.nodup_range)

end Run

end OpBase.Reduce
