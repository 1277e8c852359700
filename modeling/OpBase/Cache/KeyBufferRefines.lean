import OpBase.Cache.KeyBuffer
import OpBase.Cache.KeyDecode
import OpBase.Lib.Checked

/-!
# The key buffer is never overrun

`Follows ctx tls data`: the thread-local data hold what the bytes-only model of the key
has, the bytes before the offset and the labels; where that model is `none`, the offset
is the marker. Every routine keeps it (`addParamToBuf_refines` and its like): a check
that passes leaves room for the stores behind it, and at the marker none passes, since
what is to be written is an object and far smaller than the address space.

The template with an address is apart. Its byte count comes from the caller, and the
sum in the check may wrap: then the check passes, `memcpy_s` refuses the copy, and the
offset moves back. No byte gets behind the buffer, but the marker can be lost
(`addParamToBufFrom_marked_iff`).

> `key_buffer_kept`: no run of calls writes behind the buffer, the offset stays inside
> or at the marker, the marker stays but for calls whose sum wraps, and there
> `SetOpCacheKey` gives no key, unless one was set from outside.
>
> `getFromCache_key`: where nothing was set from outside, the key of a call is
> `Call.key`.
-/

namespace OpBase.Cache.Key

open List OpBase.Lib OpBase.Lib.Checked
open Option (bind_none bind_some some_ne_none)

/-- A byte count that, added to the marker, wraps to an offset of the buffer; only the template
with an address can have one. -/
def AddCall.Wraps : AddCall → Prop
  | .addParamToBufFrom sizeofT _ size =>
    (kInvalidHashOffset + (size * sizeofT).toNat) % 2 ^ 64 ≤ hashBufSize
  | _ => False

namespace ThreadLocal

/-! ## Memory and bytes -/

/-- The thread-local data hold what the bytes-only model has; `none` is the marker. -/
def Shows (tls : ThreadLocal) : Option TlsData → Prop
  | none => tls.hashOffset = kInvalidHashOffset
  | some data =>
    (tls.hashOffset = data.hashBuf.length ∧ data.hashBuf.length ≤ hashBufSize) ∧
      tls.hashBuf.Holds 0 (Str.ofList data.hashBuf) ∧
      tls.tensorLabelMap = data.tensorLabelMap ∧ tls.tensorLabelNum = data.tensorLabelNum ∧
      tls.tensorLabelList = data.tensorLabelList

structure Follows (ctx : Context) (tls : ThreadLocal) (data : Option TlsData) : Prop where
  context : tls.context = ctx
  labels : tls.tensorLabelList.length ≤ maxLabels
  shows : tls.Shows data

/-- No fault but the one of a vector. -/
abbrev OnlyLength (fault : Fault) : Prop := fault = .lengthError

/-- A routine does in memory what `g` does on bytes. -/
def Refines (f : ThreadLocal → Except Fault ThreadLocal) (g : TlsData → Option TlsData) : Prop :=
  ∀ ⦃ctx tls data⦄, Follows ctx tls data →
    Ends OnlyLength (fun tls => Follows ctx tls (data.bind g)) (f tls)

/-- Where there is room, a piece of a routine writes `bytes`. -/
def Writes (f : ThreadLocal → Except Fault ThreadLocal) (bytes : List Byte) : Prop :=
  ∀ ⦃ctx tls data⦄, Follows ctx tls (some data) →
    data.hashBuf.length + bytes.length ≤ hashBufSize →
    Ends OnlyLength (fun tls => Follows ctx tls (some (data.write bytes))) (f tls)

variable {f g : ThreadLocal → Except Fault ThreadLocal} {a b : TlsData → Option TlsData}
  {bytes bytes' : List Byte}

theorem Refines.bind (hf : Refines f a) (hg : Refines g b) :
    Refines (fun tls => f tls >>= g) (fun data => (a data).bind b) := by
  intro ctx tls data h
  rw [← Option.bind_assoc]
  exact (hf h).bind fun _ h => hg h

theorem Refines.foldlM {α : Type} {add : ThreadLocal → α → Except Fault ThreadLocal}
    {add' : TlsData → α → Option TlsData} :
    ∀ {members : List α}, (∀ m ∈ members, Refines (add · m) (add' · m)) →
      Refines (fun tls => members.foldlM add tls) (fun data => members.foldlM add' data)
  | [], _ => by
    intro ctx tls data h
    show Follows ctx tls (data.bind some)
    rwa [Option.bind_fun_some]
  | m :: members, h => by
    have hrest := Refines.foldlM fun m' hm' => h m' (mem_cons_of_mem m hm')
    intro ctx tls data htls
    simp only [foldlM_cons]
    exact ((h m mem_cons_self).bind hrest) htls

theorem Writes.bind (hf : Writes f bytes) (hg : Writes g bytes') :
    Writes (fun tls => f tls >>= g) (bytes ++ bytes') := by
  intro ctx tls data h hroom
  rw [length_append] at hroom
  refine (hf h (by omega)).bind fun tls htls => ?_
  rw [← TlsData.write_write]
  refine hg htls ?_
  show (data.hashBuf ++ bytes).length + bytes'.length ≤ hashBufSize
  rw [length_append]
  omega

theorem Writes.foldlM {α : Type} {add : ThreadLocal → α → Except Fault ThreadLocal}
    {bytes : α → List Byte} (h : ∀ m, Writes (add · m) (bytes m)) :
    ∀ members : List α, Writes (fun tls => members.foldlM add tls) (members.flatMap bytes)
  | [] => by
    intro ctx tls data htls _
    show Follows ctx tls (some (data.write []))
    rwa [TlsData.write, append_nil]
  | m :: members => by
    simp only [foldlM_cons]
    exact (h m).bind (Writes.foldlM h members)

/-! ## Stores -/

variable {ctx : Context} {tls : ThreadLocal}

/-- What `put` leaves of the buffer, and the offset moved by as much. -/
theorem Follows.write {data : TlsData} {written : List Byte}
    (h : Follows ctx tls (some data)) (hroom : data.hashBuf.length + bytes.length ≤ hashBufSize)
    (hwritten : bytes ≠ [] → written = bytes) :
    Follows ctx
      (advance bytes.length
        { tls with hashBuf := tls.hashBuf.place tls.hashOffset (Str.ofList written) })
      (some (data.write bytes)) := by
  obtain ⟨hctx, hlabels, ⟨hoff, hle⟩, hbuf, hmap⟩ := h
  refine ⟨hctx, hlabels, ⟨?_, ?_⟩, ?_, hmap⟩
  · show (tls.hashOffset + bytes.length) % 2 ^ 64 = (data.hashBuf ++ bytes).length
    rw [hoff, length_append]
    unfold hashBufSize at hroom
    omega
  · show (data.hashBuf ++ bytes).length ≤ hashBufSize
    rw [length_append]
    exact hroom
  · show (tls.hashBuf.place tls.hashOffset (Str.ofList written)).Holds 0
      (Str.ofList (data.hashBuf ++ bytes))
    rw [hoff, Str.ofList_append]
    have hsize : (Str.ofList data.hashBuf).size = data.hashBuf.length := rfl
    refine (hbuf.place _ (by omega)).append ?_
    rw [hsize, Nat.zero_add]
    by_cases hnil : bytes = []
    · rw [hnil]
      exact fun i hi => absurd hi (Nat.not_lt_zero i)
    · rw [hwritten hnil]
      exact Mem.holds_place _ _ _

theorem put_eq {written : List Byte}
    (h : written = [] ∨ tls.hashOffset + written.length ≤ hashBufSize) :
    tls.put written =
      .ok { tls with hashBuf := tls.hashBuf.place tls.hashOffset (Str.ofList written) } := by
  unfold put
  rw [if_neg]
  intro ⟨hne, hlt⟩
  rcases h with h | h
  · exact hne h
  · omega

theorem store_writes (bytes : List Byte) : Writes (store bytes) bytes := by
  intro ctx tls data h hroom
  have hoff := h.shows.1.1
  unfold store
  rw [put_eq (.inr (by omega)), ok_bind]
  exact h.write hroom fun _ => rfl

theorem opCacheAdd8Byte_writes (x : UInt64) : Writes (opCacheAdd8Byte · x) (le8 x) :=
  store_writes _

variable (copy : MemcpyS)

/-- The room that `memcpy_s` is told, where the offset lies in the buffer. -/
theorem destMax_eq {offset : Nat} (h : offset ≤ hashBufSize) :
    (hashBufSize + (2 ^ 64 - offset)) % 2 ^ 64 = hashBufSize - offset := by
  unfold hashBufSize at *
  omega

theorem memcpy_writes (bytes : List Byte) :
    Writes (memcpy copy (some bytes) bytes.length) bytes := by
  intro ctx tls data h hroom
  obtain ⟨hoff, hle⟩ := h.shows.1
  have hmax := copy.bounded (hashBufSize - tls.hashOffset) (some bytes) bytes.length
  unfold memcpy
  rw [destMax_eq (hoff ▸ hle)]
  show Ends _ _ (put _ tls >>= _)
  rw [put_eq (.inr (by omega)), ok_bind]
  refine h.write hroom fun hne => copy.copied _ _ hne (by omega) ?_
  unfold hashBufSize securecMemMaxLen
  omega

/-! ## Checks -/

theorem marked_sum_lt {n : Nat} (h : n ≤ 2 ^ 63 + 8) : kInvalidHashOffset + n < 2 ^ 64 := by
  unfold kInvalidHashOffset hashBufSize
  omega

theorem refines_check {n : Nat} (hn : kInvalidHashOffset + n < 2 ^ 64)
    (hf : ∀ ⦃ctx tls data⦄, Follows ctx tls (some data) →
      data.hashBuf.length + n ≤ hashBufSize →
      Ends OnlyLength (fun tls => Follows ctx tls (a data)) (f tls)) :
    Refines (checkHashBufCapacity n f) (fun data => (data.checkHashBufCapacity n).bind a) := by
  intro ctx tls data h
  unfold checkHashBufCapacity
  cases data with
  | none =>
    have hmark : tls.hashOffset = kInvalidHashOffset := h.shows
    rw [hmark, Nat.mod_eq_of_lt hn, if_pos (by unfold kInvalidHashOffset; omega)]
    exact ⟨h.context, h.labels, rfl⟩
  | some data =>
    obtain ⟨hoff, hle⟩ := h.shows.1
    have hsum : (tls.hashOffset + n) % 2 ^ 64 = data.hashBuf.length + n := by
      rw [hoff]
      unfold kInvalidHashOffset at hn
      exact Nat.mod_eq_of_lt (by omega)
    rw [hsum, bind_some]
    unfold TlsData.checkHashBufCapacity
    split
    next => exact ⟨h.context, h.labels, rfl⟩
    next hroom => exact hf h (Nat.le_of_not_lt hroom)

theorem refines_write_then {n : Nat} {k : TlsData → TlsData} (hlen : bytes.length = n)
    (hn : kInvalidHashOffset + n < 2 ^ 64) (hf : Writes f bytes)
    (hk : ∀ data, k data = data.write bytes) (hg : Refines g a) :
    Refines (checkHashBufCapacity n fun tls => f tls >>= g)
      (fun data => ((data.checkHashBufCapacity n).map k).bind a) := by
  simp only [Option.bind_map]
  refine refines_check hn fun ctx tls data h hroom => ?_
  rw [Function.comp_apply, hk]
  exact (hf h (hlen ▸ hroom)).bind fun _ h => hg h

/-- A write behind its check does on the buffer what it does on the key. -/
theorem refines_write {n : Nat} {k : TlsData → TlsData} (hlen : bytes.length = n)
    (hn : kInvalidHashOffset + n < 2 ^ 64) (hf : Writes f bytes)
    (hk : ∀ data, k data = data.write bytes) :
    Refines (checkHashBufCapacity n f) (fun data => (data.checkHashBufCapacity n).map k) := by
  simp only [Option.map_eq_bind]
  refine refines_check hn fun ctx tls data h hroom => ?_
  rw [Function.comp_apply, hk]
  exact hf h (hlen ▸ hroom)

theorem addSeperator_refines : Refines addSeperator TlsData.addSeperator :=
  refines_write rfl (marked_sum_lt (by omega)) (store_writes _) fun _ => rfl

theorem opCacheAddCounter_refines (n : Nat) :
    Refines (opCacheAddCounter n) (TlsData.opCacheAddCounter n) :=
  refines_write (length_le8 _) (marked_sum_lt (by omega)) (store_writes _) fun _ => rfl

theorem addOpConfigInfoToBuf_refines (aicNum aivNum : UInt32) :
    Refines (addOpConfigInfoToBuf aicNum aivNum) (TlsData.addOpConfigInfoToBuf aicNum aivNum) := by
  refine refines_write ?_ (marked_sum_lt (by omega)) (store_writes _) fun data => ?_
  · rw [length_append, length_le, length_le]
  · exact TlsData.write_write _ _ _

theorem addObject_refines {bytes : List Byte} (h : kInvalidHashOffset + bytes.length < 2 ^ 64) :
    Refines (addObject copy bytes) (TlsData.addParamToBufV2 bytes) :=
  refines_write rfl h (memcpy_writes copy bytes) fun _ => rfl

/-! ## Parameters -/

variable {data : Option TlsData}

theorem pushLabel_follows (h : Follows ctx tls data) (label : Nat) :
    Ends OnlyLength (fun tls => Follows ctx tls (data.map fun data =>
      { data with tensorLabelList := data.tensorLabelList ++ [label] })) (tls.pushLabel label) := by
  unfold pushLabel
  split
  next => rfl
  next hne =>
    refine ⟨h.context, ?_, ?_⟩
    · show (tls.tensorLabelList ++ [label]).length ≤ maxLabels
      have := h.labels
      rw [length_append, length_singleton]
      omega
    · cases data with
      | none => exact h.shows
      | some data =>
        obtain ⟨hoff, hbuf, hmap, hnum, hlist⟩ := h.shows
        refine ⟨hoff, hbuf, hmap, hnum, ?_⟩
        show tls.tensorLabelList ++ [label] = data.tensorLabelList ++ [label]
        rw [hlist]

theorem Follows.enter (h : Follows ctx tls data) (labels : List (Nat × Nat)) (num : Nat) :
    Follows ctx { tls with tensorLabelMap := labels, tensorLabelNum := num }
      (data.map fun data => { data with tensorLabelMap := labels, tensorLabelNum := num }) := by
  refine ⟨h.context, h.labels, ?_⟩
  cases data with
  | none => exact h.shows
  | some data =>
    obtain ⟨hoff, hbuf, _, _, hlist⟩ := h.shows
    exact ⟨hoff, hbuf, rfl, rfl, hlist⟩

theorem addAclTensorToCachedList_refines (object : Nat) : Refines (addAclTensorToCachedList object)
      (fun data => some (data.addAclTensorToCachedList object)) := by
  intro ctx tls data h
  unfold addAclTensorToCachedList
  cases data with
  | none =>
    cases tls.tensorLabelMap.lookup object with
    | none =>
      exact pushLabel_follows (h.enter ((object, tls.tensorLabelNum) :: tls.tensorLabelMap)
        (tls.tensorLabelNum + 1)) tls.tensorLabelNum
    | some label => exact pushLabel_follows h label
  | some data =>
    obtain ⟨_, _, hmap, hnum, _⟩ := h.shows
    rw [bind_some]
    unfold TlsData.addAclTensorToCachedList
    rw [hmap, hnum]
    cases data.tensorLabelMap.lookup object with
    | none =>
      exact pushLabel_follows (h.enter ((object, data.tensorLabelNum) :: data.tensorLabelMap)
        (data.tensorLabelNum + 1)) data.tensorLabelNum
    | some label => exact pushLabel_follows h label

theorem opCahceAddShapeInfo_refines {shape : List Int64} (h : 8 * shape.length < 2 ^ 63)
    (hg : Refines g a) :
    Refines (opCahceAddShapeInfo shape g)
      (fun data => (data.opCahceAddShapeInfo shape).bind a) := by
  have hbytes := length_flatMap_of (fun d : Int64 => length_le8 d.toUInt64) shape
  have hwrites := (Writes.foldlM (fun d : Int64 => opCacheAdd8Byte_writes d.toUInt64) shape).bind
    (store_writes [separator])
  have hall := refines_write_then (n := 8 * shape.length + 1)
    (k := fun data =>
      (shape.foldl (fun data d => data.opCacheAdd8Byte d.toUInt64) data).opCacheAddSeperator)
    (by rw [length_append, hbytes, length_singleton, Nat.mul_comm])
    (marked_sum_lt (by omega)) hwrites
    (fun data => by
      rw [TlsData.foldl_add8Byte, TlsData.opCacheAddSeperator, TlsData.write_write])
    hg
  simp only [bind_assoc] at hall
  exact hall

theorem addTensor_refines {t : Option Tensor}
    (h : ∀ size ∈ t.toList.flatMap Tensor.sizes, size < 2 ^ 63) :
    Refines (addTensor · t) (TlsData.addTensor · t) := by
  cases t with
  | none => exact addSeperator_refines
  | some t =>
    have hsizes : ∀ size ∈ t.sizes, size < 2 ^ 63 := fun size hsize =>
      h size (mem_flatMap.mpr ⟨t, mem_singleton_self t, hsize⟩)
    have hwrites := (store_writes (le 4 t.dataType.code.toNat)).bind <|
      (store_writes [separator]).bind <|
      (store_writes (le8 t.viewOffset.toUInt64)).bind <|
      (store_writes [separator]).bind (store_writes (le 4 t.viewFormat.code.toNat))
    have htail := refines_write
      (k := fun data =>
        (((data.opCacheAdd4Byte t.dataType.code).opCacheAddSeperator.opCacheAdd8Byte
          t.viewOffset.toUInt64).opCacheAddSeperator).opCacheAdd4Byte t.viewFormat.code)
      (n := 4 + 1 + 8 + 1 + 4) rfl (marked_sum_lt (by omega)) hwrites (fun data => by
        unfold TlsData.opCacheAdd4Byte TlsData.opCacheAddSeperator TlsData.opCacheAdd8Byte
        simp only [TlsData.write_write, append_assoc])
    exact (addAclTensorToCachedList_refines t.object).bind <|
      opCahceAddShapeInfo_refines (hsizes _ (by simp [Tensor.sizes])) <|
      opCahceAddShapeInfo_refines (hsizes _ (by simp [Tensor.sizes])) <|
      opCahceAddShapeInfo_refines (hsizes _ (by simp [Tensor.sizes])) htail

theorem addScalar_refines (s : Option Scalar) :
    Refines (addScalar copy · s) (TlsData.addScalar · s) := by
  cases s with
  | none => exact addSeperator_refines
  | some s =>
    have hwrites := (memcpy_writes copy s.data).bind (store_writes [separator])
    have := typeSize_le s.dataType
    rw [s.size] at hwrites
    refine refines_write ?_ (marked_sum_lt (by omega)) hwrites fun data => ?_
    · rw [length_append, s.size, length_singleton]
    · exact TlsData.write_write _ _ _

theorem addArray_refines {α : Type} {size : Nat} {bytes : α → List Byte}
    (hbytes : ∀ x, (bytes x).length = size) {value : Option (List α)}
    (h : (value.getD []).length * size < 2 ^ 63) :
    Refines (addArray copy size bytes · value) (TlsData.addArray size bytes · value) := by
  cases value with
  | none => exact addSeperator_refines
  | some elements =>
    have hlen := length_flatMap_of hbytes elements
    have hwrites := (memcpy_writes copy (elements.flatMap bytes)).bind
      (opCacheAdd8Byte_writes (UInt64.ofNat elements.length))
    rw [hlen] at hwrites
    have : elements.length * size < 2 ^ 63 := h
    refine refines_write ?_ (marked_sum_lt (by omega)) hwrites fun data => ?_
    · rw [length_append, hlen, length_le8]
    · exact TlsData.write_write _ _ _

theorem addList_refines {α : Type} {add : ThreadLocal → α → Except Fault ThreadLocal}
    {add' : TlsData → α → Option TlsData} {members : Option (List α)}
    (h : ∀ m ∈ members.getD [], Refines (add · m) (add' · m)) :
    Refines (addList add · members) (TlsData.addList add' · members) := by
  cases members with
  | none => exact addSeperator_refines
  | some members => exact (Refines.foldlM h).bind (opCacheAddCounter_refines members.length)

theorem addCharPtr_refines {c : Option (List Byte)} (h : (c.getD []).length < 2 ^ 63) :
    Refines (addCharPtr copy · c) (TlsData.addCharPtr · c) := by
  cases c with
  | none => exact addSeperator_refines
  | some c =>
    have : c.length < 2 ^ 63 := h
    exact (addObject_refines copy (marked_sum_lt (by omega))).bind
      (opCacheAddCounter_refines c.length)

/-- One argument is written into the buffer as it is into the key. -/
theorem addParamToBuf_refines {p : Param Tensor UInt64} (h : p.Fits) :
    Refines (addParamToBuf copy · p) (TlsData.addParamToBuf · p) := by
  have hobject : ∀ bytes : List Byte, bytes.length < 2 ^ 63 →
      Refines (addObject copy bytes) (TlsData.addParamToBufV2 bytes) :=
    fun bytes hbytes => addObject_refines copy (marked_sum_lt (by omega))
  cases p with
  | tensor t => exact addTensor_refines h
  | tensorList ts =>
    refine addList_refines fun t ht => addTensor_refines fun size hsize => h size ?_
    obtain ⟨t', ht', hsize⟩ := mem_flatMap.mp hsize
    refine mem_flatMap.mpr ⟨t', ?_, hsize⟩
    exact mem_filterMap.mpr ⟨t, ht, Option.mem_toList.mp ht'⟩
  | intArray v =>
    exact addArray_refines copy (fun d => length_le8 _) (h _ (mem_singleton_self _))
  | boolArray v =>
    have hone : ∀ b, (TlsData.boolBytes b).length = 1 := fun _ => rfl
    exact addArray_refines copy hone (h _ (mem_singleton_self _))
  | floatArray v =>
    exact addArray_refines copy (fun x => length_le 4 _) (h _ (mem_singleton_self _))
  | fp16Array v =>
    exact addArray_refines copy (fun x => length_le 2 _) (h _ (mem_singleton_self _))
  | bf16Array v => exact hobject _ (by rw [length_le8]; omega)
  | scalar s => exact addScalar_refines copy s
  | scalarList ss => exact addList_refines fun s _ => addScalar_refines copy s
  | string s => exact hobject s (h _ (mem_singleton_self _))
  | charPtr c => exact addCharPtr_refines copy (h _ (mem_singleton_self _))
  | dataType dtype => exact hobject _ (by rw [length_le]; omega)
  | plain v => exact hobject v (h _ (mem_singleton_self _))

/-! ## The template with an address -/

theorem exists_follows (hoff : tls.hashOffset ≤ hashBufSize)
    (hlabels : tls.tensorLabelList.length ≤ maxLabels) :
    ∃ data, Follows tls.context tls (some data) := by
  refine ⟨⟨(List.range tls.hashOffset).map tls.hashBuf, tls.tensorLabelMap, tls.tensorLabelNum,
    tls.tensorLabelList⟩, rfl, hlabels, ⟨?_, ?_⟩, ?_, rfl, rfl, rfl⟩
  · rw [length_map, length_range]
  · rw [length_map, length_range]
    exact hoff
  · intro i hi
    have hi : i < tls.hashOffset := by
      rwa [Str.ofList, length_map, length_range] at hi
    rw [Nat.zero_add]
    show tls.hashBuf i = ((List.range tls.hashOffset).map tls.hashBuf).getD i 0
    rw [getD_eq_getElem?_getD, getElem?_map, getElem?_range hi]
    rfl

/-! ## The key -/

/-- What `SetOpCacheKey` leaves, where the key may be the buffer's bytes. -/
def Gives (key : OpCacheKey) (r : ThreadLocal × OpCacheKey) : Option (List Byte) → Prop
  | none => r.1.context.cacheHashKey = .empty ∧ r.2 = key
  | some bytes => r.1.context.cacheHashKey = r.2 ∧ r.2 = ⟨some .hashBuf, bytes.length⟩ ∧
      r.1.hashBuf.Holds 0 (Str.ofList bytes)

theorem labels_refines {labels : List Nat} (h : labels.length ≤ maxLabels) :
    Refines (checkHashBufCapacity (8 * labels.length) fun tls =>
        labels.foldlM (fun tls label => tls.opCacheAdd8Byte (UInt64.ofNat label)) tls)
      (fun data => (data.checkHashBufCapacity (8 * labels.length)).map fun data =>
        labels.foldl (fun data label => data.opCacheAdd8Byte (UInt64.ofNat label)) data) := by
  have hlen := length_flatMap_of (fun label => length_le8 (UInt64.ofNat label)) labels
  unfold maxLabels at h
  refine refines_write (hlen.trans (Nat.mul_comm _ _)) (marked_sum_lt (by omega))
    (Writes.foldlM (fun label => opCacheAdd8Byte_writes (UInt64.ofNat label)) labels) fun data => ?_
  exact TlsData.foldl_add8Byte UInt64.ofNat labels data

theorem setOpCacheKey_eq (h : tls.Shows data) :
    data.bind TlsData.setOpCacheKey =
      (data.bind fun data =>
        (data.checkHashBufCapacity (8 * tls.tensorLabelList.length)).map fun data =>
          tls.tensorLabelList.foldl (fun data label => data.opCacheAdd8Byte (UInt64.ofNat label))
            data).map TlsData.hashBuf := by
  cases data with
  | none => rfl
  | some data =>
    rw [h.2.2.2.2, bind_some, bind_some]
    unfold TlsData.setOpCacheKey TlsData.checkHashBufCapacity
    split <;> rfl

theorem setOpCacheKey_marked (h : tls.hashOffset = kInvalidHashOffset)
    (hlabels : tls.tensorLabelList.length ≤ maxLabels) (hpta : tls.context.usePTAHash = false)
    (key : OpCacheKey) :
    tls.setOpCacheKey key = .ok (tls.setPTACacheHashKey .empty, key) := by
  have hfull : (tls.hashOffset + 8 * tls.tensorLabelList.length) % 2 ^ 64 > hashBufSize := by
    unfold maxLabels at hlabels
    rw [h, Nat.mod_eq_of_lt (marked_sum_lt (by omega))]
    unfold kInvalidHashOffset
    omega
  unfold setOpCacheKey checkHashBufCapacity
  rw [hpta, if_neg Bool.false_ne_true, if_pos hfull, ok_bind, if_pos rfl, ← h]
  rfl

/-! ## Runs -/

theorem clear_follows (tls : ThreadLocal) (ctx : Context) :
    Follows ctx { tls.clear with context := ctx } (some TlsData.init) :=
  ⟨rfl, Nat.zero_le _, ⟨rfl, Nat.zero_le _⟩, fun i hi => absurd hi (Nat.not_lt_zero i), rfl, rfl,
    rfl⟩

theorem init_follows (tls : ThreadLocal) (i : Init) :
    ∃ ctx, Follows ctx (tls.init i) (some TlsData.init) := by
  cases i with
  | initExecutorCacheThreadLocal =>
    show ∃ ctx, Follows ctx tls.initExecutorCacheThreadLocal _
    unfold initExecutorCacheThreadLocal
    split
    next => exact ⟨_, clear_follows tls tls.context⟩
    next => exact ⟨_, clear_follows tls _⟩
  | resetCacheThreadLocal | initPTACacheThreadLocal => exact ⟨_, clear_follows tls _⟩

section

variable (h : Follows ctx tls data)
include h

theorem Follows.marked_iff : tls.hashOffset = kInvalidHashOffset ↔ data = none := by
  cases data with
  | none => exact iff_of_true h.shows rfl
  | some data =>
    obtain ⟨hoff, hle⟩ := h.shows.1
    refine iff_of_false (fun hmark => ?_) (some_ne_none _)
    rw [← hoff, hmark] at hle
    exact absurd hle (by decide)

theorem Follows.offset :
    tls.hashOffset ≤ hashBufSize ∨ tls.hashOffset = kInvalidHashOffset := by
  cases data with
  | none => exact .inr h.shows
  | some data => exact .inl (h.shows.1.1 ▸ h.shows.1.2)

/-- Whatever `memcpy_s` leaves lies in the buffer. -/
theorem put_written (addr : Option (List Byte)) (count : Nat) :
    ∃ m, tls.put (copy.written ((hashBufSize + (2 ^ 64 - tls.hashOffset)) % 2 ^ 64) addr count) =
      .ok { tls with hashBuf := m } := by
  refine ⟨_, put_eq ?_⟩
  rcases h.offset with hoff | hoff
  · rw [destMax_eq hoff]
    have := copy.bounded (hashBufSize - tls.hashOffset) addr count
    exact .inr (by omega)
  · rw [hoff]
    exact .inl (copy.refused _ _ _ (by decide))

theorem addParamToBufFrom_follows (addr : Option (List Byte)) (count : Nat) :
    Ends OnlyLength (fun tls' => ∃ data', Follows ctx tls' data' ∧
        (data' = none ↔ hashBufSize < (tls.hashOffset + count) % 2 ^ 64))
      (tls.addParamToBufV2 copy addr count) := by
  unfold addParamToBufV2 checkHashBufCapacity
  split
  next hfull => exact ⟨none, ⟨h.context, h.labels, rfl⟩, iff_of_true rfl hfull⟩
  next hroom =>
    obtain ⟨m, hm⟩ := put_written copy h addr count
    unfold memcpy
    show Ends _ _ (put _ tls >>= _)
    rw [hm, ok_bind]
    have hoff : (advance count { tls with hashBuf := m }).hashOffset ≤ hashBufSize :=
      Nat.le_of_not_lt hroom
    obtain ⟨data', hdata'⟩ := exists_follows hoff h.labels
    exact ⟨some data', h.context ▸ hdata', iff_of_false (some_ne_none _) hroom⟩

theorem setOpCacheKey_gives (hpta : ctx.usePTAHash = false) (key : OpCacheKey) :
    Ends OnlyLength (fun r => Gives key r (data.bind TlsData.setOpCacheKey))
      (tls.setOpCacheKey key) := by
  rw [setOpCacheKey_eq h.shows]
  unfold setOpCacheKey
  rw [h.context, hpta, if_neg Bool.false_ne_true]
  refine (labels_refines h.labels h).bind fun tls' h' => ?_
  generalize data.bind _ = data' at h' ⊢
  cases data' with
  | none =>
    rw [if_pos (h'.marked_iff.mpr rfl)]
    exact ⟨rfl, rfl⟩
  | some data' =>
    obtain ⟨⟨hoff, _⟩, hbuf, _⟩ := h'.shows
    rw [if_neg (fun hmark => some_ne_none _ (h'.marked_iff.mp hmark))]
    exact ⟨rfl, by rw [hoff], hbuf⟩

theorem add_follows (call : AddCall) :
    Ends OnlyLength (fun tls' => ∃ data', Follows ctx tls' data' ∧
      (data = none → ¬ call.Wraps → data' = none)) (tls.add copy call) := by
  cases call with
  | addParamToBuf param fits =>
    refine (addParamToBuf_refines copy fits h).mono fun tls' h' => ⟨_, h', fun hnone _ => ?_⟩
    rw [hnone, bind_none]
  | addParamToBufFrom sizeofT addr size =>
    refine (addParamToBufFrom_follows copy h addr _).mono fun tls' ⟨data', h', hnone⟩ =>
      ⟨data', h', fun hdata hwraps => ?_⟩
    rw [hnone, h.marked_iff.mpr hdata]
    exact Nat.lt_of_not_le hwraps
  | addNothing => exact ⟨data, h, fun hnone _ => hnone⟩
  | addSeperator =>
    refine (addSeperator_refines h).mono fun tls' h' => ⟨_, h', fun hnone _ => ?_⟩
    rw [hnone, bind_none]
  | addOpConfigInfoToBuf aicNum aivNum =>
    refine (addOpConfigInfoToBuf_refines aicNum aivNum h).mono fun tls' h' =>
      ⟨_, h', fun hnone _ => ?_⟩
    rw [hnone, bind_none]

end

theorem addParamToBufFrom_marked_iff
    (h : Follows ctx tls none) (sizeofT : UInt64) (addr : Option (List Byte)) (size : UInt64) :
    Ends OnlyLength (fun tls' => tls'.hashOffset = kInvalidHashOffset ↔
        ¬ (AddCall.addParamToBufFrom sizeofT addr size).Wraps)
      (tls.add copy (.addParamToBufFrom sizeofT addr size)) := by
  refine (addParamToBufFrom_follows copy h addr _).mono fun tls' ⟨data', h', hnone⟩ => ?_
  rw [h'.marked_iff, hnone, h.marked_iff.mpr rfl]
  exact Nat.not_le.symm

theorem adds_follow (calls : List AddCall) (h : ∃ data, Follows ctx tls data) :
    Ends OnlyLength (fun tls => ∃ data, Follows ctx tls data) (calls.foldlM (add copy) tls) := by
  refine Ends.foldlM (fun call _ tls ⟨data, h⟩ => ?_) h
  exact (add_follows copy h call).mono fun tls' ⟨data', h', _⟩ => ⟨data', h'⟩

theorem adds_marked {calls : List AddCall}
    (hcalls : ∀ call ∈ calls, ¬ call.Wraps) (h : Follows ctx tls none) :
    Ends OnlyLength (fun tls => Follows ctx tls none) (calls.foldlM (add copy) tls) := by
  refine Ends.foldlM (fun call hcall tls h => ?_) h
  refine (add_follows copy h call).mono fun tls' ⟨data', h', hnone⟩ => ?_
  rwa [hnone rfl (hcalls call hcall)] at h'

/-- No call writes behind the key buffer, and the offset lies in it or is the marker. The marker
stays but for calls whose byte count wraps; there no key is given, unless it is from outside. -/
theorem key_buffer_kept (start : ThreadLocal) (i : Init) (calls : List AddCall) :
    calls.foldlM (add copy) (start.init i) ≠ .error .overrun ∧
    ∀ tls, calls.foldlM (add copy) (start.init i) = .ok tls →
      (tls.hashOffset ≤ hashBufSize ∨ tls.hashOffset = kInvalidHashOffset) ∧
      (tls.hashOffset = kInvalidHashOffset →
        (∀ (later : List AddCall) (tls' : ThreadLocal), (∀ call ∈ later, ¬ call.Wraps) →
          later.foldlM (add copy) tls = .ok tls' → tls'.hashOffset = kInvalidHashOffset) ∧
        (tls.context.usePTAHash = false → ∀ key,
          tls.setOpCacheKey key = .ok (tls.setPTACacheHashKey .empty, key))) := by
  obtain ⟨ctx, hinit⟩ := init_follows start i
  have hrun := adds_follow copy calls ⟨_, hinit⟩
  have hoverrun : ¬ OnlyLength .overrun := by decide
  refine ⟨hrun.ne_error hoverrun, fun tls htls => ?_⟩
  obtain ⟨data, h⟩ := hrun.of_eq_ok htls
  refine ⟨h.offset, fun hmark => ⟨fun later tls' hlater htls' => ?_, fun hpta key => ?_⟩⟩
  · rw [h.marked_iff.mp hmark] at h
    exact ((adds_marked copy hlater h).of_eq_ok htls').marked_iff.mpr rfl
  · exact setOpCacheKey_marked hmark h.labels hpta key

theorem add_string_full {s : List Byte} (fits : (Param.string s).Fits)
    (h : hashBufSize < (tls.hashOffset + s.length) % 2 ^ 64) :
    [AddCall.addParamToBuf (.string s) fits].foldlM (add copy) tls =
      .ok { tls with hashOffset := kInvalidHashOffset } := by
  rw [foldlM_cons]
  show (addObject copy s tls >>= fun tls => List.foldlM (add copy) tls []) = _
  unfold addObject addParamToBufV2 checkHashBufCapacity
  rw [if_pos h]
  rfl

/-- A name of 9000 characters. -/
def longName : AddCall :=
  .addParamToBuf (.string (List.replicate 9000 97)) fun size hsize => by
    rw [mem_singleton.mp hsize, length_replicate]
    decide

/-- A key from outside is given at the marker as well. -/
theorem marked_with_outside_key :
    let start := initPTACacheThreadLocal ⟨fun _ => 0, 0, [], 0, [], ⟨.empty, false⟩⟩
    let start := start.setPTACacheHashKey ⟨some (.pta 4096), 16⟩
    ∃ tls, [longName].foldlM (add .securec) (start.init .initExecutorCacheThreadLocal) = .ok tls ∧
      tls.hashOffset = kInvalidHashOffset ∧
      tls.setOpCacheKey .empty = .ok (tls, ⟨some (.pta 4096), 16⟩) := by
  refine ⟨_, add_string_full .securec _ ?_, rfl, rfl⟩
  rw [length_replicate]
  decide

/-- Where no key is set from outside, the key of a call is the bytes of `Call.key`, in the
buffer; without these there is none. -/
theorem getFromCache_key {call : Call} (hapi : call.api.length < 2 ^ 63)
    (hparams : ∀ p ∈ call.params, p.Fits)
    (hpta : tls.context.usePTAHash = false) :
    Ends OnlyLength (fun r => Gives .empty r call.key) (tls.getFromCache copy call) := by
  have hinit : Follows ⟨.empty, false⟩ tls.initExecutorCacheThreadLocal (some TlsData.init) := by
    unfold initExecutorCacheThreadLocal
    rw [hpta, if_neg Bool.false_ne_true]
    exact clear_follows tls _
  have hparams_refine : ∀ ps : List (Param Tensor UInt64), (∀ p ∈ ps, p ∈ call.params) →
      Refines (fun tls => ps.foldlM (addParamToBuf copy) tls)
        (fun data => ps.foldlM TlsData.addParamToBuf data) := fun ps hps =>
    Refines.foldlM fun p hp => addParamToBuf_refines copy (hparams p (hps p hp))
  have hinputs := hparams_refine call.inputs fun p hp => mem_append_left _ hp
  have houtputs := hparams_refine call.outputs fun p hp => mem_append_right _ hp
  have hall := (addCharPtr_refines copy (c := some call.api) hapi).bind <|
    (addOpConfigInfoToBuf_refines call.aicNum call.aivNum).bind <| hinputs.bind houtputs
  have hkey := (hall hinit).bind fun tls' h' => setOpCacheKey_gives h' rfl .empty
  simp only [bind_assoc, bind_some, Option.bind_assoc] at hkey
  exact hkey

/-- A string of one character is an argument of the key. -/
theorem getFromCache_key_string :
    let tls : ThreadLocal := ⟨fun _ => 0, 0, [], 0, [], ⟨.empty, false⟩⟩
    let call : Call := ⟨[65, 100, 100], 24, 48, [.string [120]], []⟩
    Ends OnlyLength (fun r => Gives .empty r call.key) (tls.getFromCache .securec call) :=
  getFromCache_key .securec (by decide) (by simp [Call.params, Param.Fits, Param.sizes]) rfl

end ThreadLocal

end OpBase.Cache.Key
