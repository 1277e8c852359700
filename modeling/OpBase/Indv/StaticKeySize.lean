import OpBase.Indv.BinKeyBytes

/-!
# The size of a static key

`NnopbaseExecutorComputeGenKeySize` and `NnopbaseExecutorGenStaticKey` walk the same arguments.
They agree item by item, with one exception: each value of a value-depend input and each
element of a vector attribute counts for one word, while `NnopbaseExecutor8ByteCopy` writes as
many words as it takes. What is wider than eight bytes is written past the size, and past
the buffer as soon as it comes to more than the 250 bytes that are kept in reserve. An
output's values are not counted at all.

The scalar attributes are added through a pointer to `uint32_t`, so the sum is right as
long as it stays below 2³².

> `static_key_size`: the size is the number of bytes written if the sum stays below 2³² and,
> for a key that is not rejected, no value and no element is wider than a word. The
> second is needed, too.
-/

namespace OpBase.Indv.BinKey

open List OpBase.Lib
open OpBase.Cache.Key (securecMemMaxLen)

variable {op : Op} {hasher : UInt64 → UInt64} {sys : SysParams} {a : KeyArgs op} {k : BinInfoKey}
  {data : List Byte}

/-! ## The sum -/

/-- What a slot counts for. -/
def slotSize (values : Bool) (t : ExtTensor) : Nat :=
  if t.isNull then 8
  else
    (if t.isRequired || t.isOptional then 16 else 0) + t.rt2Tensor.storageShape.val.length * 8 +
      if values && t.valueDepend then t.rt2Tensor.data.length / typeSize t.rt2Tensor.dataType * 8
      else 0

/-- What an attribute counts for. -/
def attrSize (a : AttrAddr) : Nat :=
  if a.isVector then a.data.length / a.elementSize * 8
  else if a.data.length % 8 = 0 then a.data.length
  else (a.data.length / 8 + 1) * 8

/-- The size without the limits of the machine. -/
def keySize (a : KeyArgs op) : Nat :=
  op.opType.val.length + 16 + ((slots a.inputs).map (slotSize true)).sum +
    ((slots a.outputs).map (slotSize false)).sum + (a.attrs.map attrSize).sum

theorem addTensorSize_eq (values : Bool) (len : UInt64) (t : ExtTensor) :
    addTensorSize values len t = len + UInt64.ofNat (slotSize values t) := by
  unfold addTensorSize slotSize
  split
  next => rfl
  next =>
    have h0 : UInt64.ofNat 0 = 0 := rfl
    have h8 : UInt64.ofNat 8 = 8 := rfl
    have h16 : UInt64.ofNat 16 = 16 := rfl
    cases t.isRequired || t.isOptional
    all_goals
      cases values && t.valueDepend
      all_goals
        simp only [Bool.false_eq_true, if_true, if_false, UInt64.ofNat_add, UInt64.ofNat_mul, h0,
          h8, h16, UInt64.add_zero, UInt64.zero_add, UInt64.add_assoc]

theorem foldl_addTensorSize (values : Bool) (ts : List ExtTensor) (n : Nat) :
    ts.foldl (addTensorSize values) (UInt64.ofNat n) =
      UInt64.ofNat (n + (ts.map (slotSize values)).sum) := by
  induction ts generalizing n with
  | nil => rfl
  | cons t ts ih =>
    rw [foldl_cons, addTensorSize_eq, ← UInt64.ofNat_add, ih, map_cons, sum_cons, Nat.add_assoc]

theorem addAttrSize_eq {n : Nat} {a : AttrAddr} (h : n + attrSize a < 2 ^ 32) :
    addAttrSize (UInt64.ofNat n) a = UInt64.ofNat (n + attrSize a) := by
  unfold addAttrSize attrSize at *
  split at h
  next hv =>
    rw [if_pos hv, if_pos hv, UInt64.ofNat_add, UInt64.ofNat_mul]
    rfl
  next hv =>
    rw [if_neg hv, if_neg hv]
    unfold get8ByteSize
    have hn : (UInt64.ofNat n).toNat = n := UInt64.toNat_ofNat_of_lt' (by
      show n < 2 ^ 64
      omega)
    have hhigh : n / 2 ^ 32 = 0 := Nat.div_eq_of_lt (Nat.lt_of_le_of_lt (Nat.le_add_right _ _) h)
    dsimp only
    rw [hn, hhigh, Nat.zero_mul, Nat.zero_add, Nat.mod_eq_of_lt h]

theorem foldl_addAttrSize {attrs : List AttrAddr} {n : Nat}
    (h : n + (attrs.map attrSize).sum < 2 ^ 32) :
    attrs.foldl addAttrSize (UInt64.ofNat n) = UInt64.ofNat (n + (attrs.map attrSize).sum) := by
  induction attrs generalizing n with
  | nil => rfl
  | cons a attrs ih =>
    rw [map_cons, sum_cons, ← Nat.add_assoc] at h ⊢
    rw [foldl_cons, addAttrSize_eq (by omega), ih h]

/-- The computed size, where it does not wrap. -/
theorem computeGenKeySize_eq (h : keySize a < 2 ^ 32) :
    (computeGenKeySize a).toNat = keySize a := by
  have hsum : computeGenKeySize a = UInt64.ofNat (keySize a) := by
    unfold computeGenKeySize
    dsimp only
    have hhead : UInt64.ofNat op.opType.val.length + 16 =
        UInt64.ofNat (op.opType.val.length + 16) := (UInt64.ofNat_add _ _).symm
    rw [hhead, foldl_addTensorSize, foldl_addTensorSize]
    exact foldl_addAttrSize h
  rw [hsum]
  apply UInt64.toNat_ofNat_of_lt'
  show keySize a < 2 ^ 64
  omega

/-! ## The bytes -/

/-- No value of the slot is wider than its word in the sum. -/
def NarrowSlot (values : Bool) (t : ExtTensor) : Prop :=
  t.isNull = false → t.valueDepend = true →
    (values = true ∧ typeSize t.rt2Tensor.dataType ≤ 8) ∨
      t.rt2Tensor.data.length < typeSize t.rt2Tensor.dataType

/-- No element of the attribute is wider than a word. -/
def NarrowAttr (a : AttrAddr) : Prop :=
  a.isVector = true → a.elementSize ≤ 8 ∨ a.data.length < a.elementSize

theorem length_wordsBytes (h : data.length < 2 ^ 31) :
    (wordsBytes data).length = (data.length + 7) / 8 * 8 := by
  unfold wordsBytes copied securecMemMaxLen
  have htake : (data.take (8 * (data.length / 8))).length = 8 * (data.length / 8) := by
    rw [length_take]
    omega
  dsimp only
  rw [if_pos ⟨by omega, by omega⟩, length_append, htake]
  split
  next =>
    rw [length_le8]
    omega
  next =>
    rw [length_nil]
    omega

theorem length_valuesBytes {size : Nat} (h : size < 2 ^ 31 ∨ data.length < size) :
    ((chunks size data).flatMap wordsBytes).length = data.length / size * ((size + 7) / 8 * 8) := by
  rw [← length_chunks size data]
  have hwords : ∀ e ∈ chunks size data, (wordsBytes e).length = (size + 7) / 8 * 8 := by
    intro e he
    rcases h with hsmall | hnone
    · rw [length_wordsBytes (by rwa [length_chunk he]), length_chunk he]
    · have hempty : (chunks size data).length = 0 := by
        rw [length_chunks, Nat.div_eq_of_lt hnone]
      rw [length_eq_zero_iff.mp hempty] at he
      cases he
  generalize chunks size data = es at hwords
  induction es with
  | nil => exact (Nat.zero_mul _).symm
  | cons e es ih =>
    rw [flatMap_cons, length_append, hwords e mem_cons_self,
      ih fun e' he' => hwords e' (mem_cons_of_mem e he'), length_cons, Nat.succ_mul,
      Nat.add_comm]

theorem values_le {n size : Nat} (hpos : 0 < size) :
    n / size * 8 ≤ n / size * ((size + 7) / 8 * 8) ∧
      (n / size * 8 = n / size * ((size + 7) / 8 * 8) ↔ size ≤ 8 ∨ n < size) := by
  have hword : 8 ≤ (size + 7) / 8 * 8 := by omega
  refine ⟨Nat.mul_le_mul_left _ hword, ?_⟩
  constructor
  · intro heq
    rcases Nat.eq_zero_or_pos (n / size) with hzero | hsome
    · exact .inr ((Nat.div_eq_zero_iff_lt hpos).mp hzero)
    · have := Nat.eq_of_mul_eq_mul_left hsome heq
      exact .inl (by omega)
  · rintro (hsmall | hnone)
    · rw [show (size + 7) / 8 = 1 by omega]
    · rw [Nat.div_eq_of_lt hnone, Nat.zero_mul, Nat.zero_mul]

theorem length_dims (dims : List Int64) :
    (dims.flatMap fun d => le8 d.toUInt64).length = dims.length * 8 :=
  length_flatMap_of (fun _ => length_le8 _) dims

/-- No more is counted for a slot than its bytes, and all of them only if its values are narrow. -/
theorem slotSize_le (values : Bool) (t : ExtTensor) :
    slotSize values t ≤ (slotBytes t).length ∧
      (slotSize values t = (slotBytes t).length ↔ NarrowSlot values t) := by
  have hpos := typeSize_pos t.rt2Tensor.dataType
  have hmax := typeSize_le t.rt2Tensor.dataType
  have hvalues := values_le (n := t.rt2Tensor.data.length) hpos
  have htype : (if t.isRequired || t.isOptional then
      le8 t.rt2Tensor.dataType.code.toUInt64 ++ le8 t.rt2Tensor.storageFormat.toUInt64
      else []).length = if t.isRequired || t.isOptional then 16 else 0 := by
    split
    next => rw [length_append, length_le8, length_le8]
    next => rfl
  unfold slotSize slotBytes NarrowSlot
  cases t.isNull with
  | true => exact ⟨Nat.le_of_eq (length_le8 _).symm, iff_of_true (length_le8 _).symm (nomatch ·)⟩
  | false =>
    dsimp only
    simp only [Bool.false_eq_true, if_false, length_append, htype, length_dims]
    cases t.valueDepend with
    | false =>
      rw [Bool.and_false]
      exact ⟨Nat.le_refl _, iff_of_true rfl fun _ => (nomatch ·)⟩
    | true =>
      rw [if_pos rfl, length_valuesBytes (.inl (by omega)), Bool.and_true]
      -- the values are counted only where the call has them
      cases values with
      | true =>
        rw [if_pos rfl]
        refine ⟨by omega, ?_⟩
        rw [Nat.add_left_cancel_iff, hvalues.2]
        simp
      | false =>
        refine ⟨by simp, ?_⟩
        have hzero : t.rt2Tensor.data.length / typeSize t.rt2Tensor.dataType *
            ((typeSize t.rt2Tensor.dataType + 7) / 8 * 8) = 0 ↔
              t.rt2Tensor.data.length < typeSize t.rt2Tensor.dataType := by
          rw [Nat.mul_eq_zero, Nat.div_eq_zero_iff_lt hpos]
          omega
        simp only [Bool.false_eq_true, if_false, Nat.add_zero, false_and, false_or,
          forall_const, ← hzero]
        omega

/-- No copy of `memcpy_s` is refused: neither a scalar attribute nor an element has 2³¹ bytes
or more. -/
def AttrAddr.Copyable (a : AttrAddr) : Prop :=
  if a.isVector then a.elementSize < 2 ^ 31 ∨ a.data.length < a.elementSize
  else a.data.length < 2 ^ 31

instance (a : AttrAddr) : Decidable a.Copyable :=
  inferInstanceAs (Decidable (if a.isVector then _ ∨ _ else _))

theorem attrSize_le {a : AttrAddr} (h : a.Copyable) :
    attrSize a ≤ (attrBytes a).length ∧ (attrSize a = (attrBytes a).length ↔ NarrowAttr a) := by
  unfold AttrAddr.Copyable at h
  unfold attrSize attrBytes NarrowAttr
  by_cases hv : a.isVector = true
  · rw [if_pos hv] at h
    rw [if_pos hv, if_pos hv, length_valuesBytes h]
    have hpos : 0 < a.elementSize := Nat.pos_of_ne_zero (of_decide_eq_true hv)
    obtain ⟨hle, hiff⟩ := values_le (n := a.data.length) hpos
    exact ⟨hle, hiff.trans ⟨fun h _ => h, fun h => h hv⟩⟩
  · rw [if_neg hv] at h
    rw [if_neg hv, if_neg hv, length_wordsBytes h]
    have hround : (if a.data.length % 8 = 0 then a.data.length else (a.data.length / 8 + 1) * 8) =
        (a.data.length + 7) / 8 * 8 := by
      split <;> omega
    exact ⟨Nat.le_of_eq hround, iff_of_true hround fun h => absurd h hv⟩

/-! ## All items -/

theorem sum_map_le {α : Type} {f : α → Nat} {g : α → List Byte} {p : α → Prop} {l : List α}
    (h : ∀ x ∈ l, f x ≤ (g x).length ∧ (f x = (g x).length ↔ p x)) :
    (l.map f).sum ≤ (l.flatMap g).length ∧
      ((l.map f).sum = (l.flatMap g).length ↔ ∀ x ∈ l, p x) := by
  induction l with
  | nil => exact ⟨Nat.le_refl 0, iff_of_true rfl fun _ h => (nomatch h)⟩
  | cons x l ih =>
    obtain ⟨hle, hiff⟩ := h x mem_cons_self
    obtain ⟨hrest, hrestIff⟩ := ih fun y hy => h y (mem_cons_of_mem x hy)
    rw [map_cons, sum_cons, flatMap_cons, length_append, forall_mem_cons, ← hiff, ← hrestIff]
    omega

/-- No value and no element is wider than a word. -/
structure Narrow (a : KeyArgs op) : Prop where
  inputs : ∀ t ∈ slots a.inputs, NarrowSlot true t
  outputs : ∀ t ∈ slots a.outputs, NarrowSlot false t
  attrs : ∀ x ∈ a.attrs, NarrowAttr x

/-- The bytes of the layout. -/
def layoutLength (a : KeyArgs op) : Nat := op.opType.val.length + 16 + (itemsBytes a).length

/-- The computed size is at most that of the key, and the same if all values are narrow. -/
theorem keySize_le (h : ∀ x ∈ a.attrs, x.Copyable) :
    keySize a ≤ layoutLength a ∧ (keySize a = layoutLength a ↔ Narrow a) := by
  obtain ⟨hin, hinIff⟩ := sum_map_le fun t (_ : t ∈ slots a.inputs) => slotSize_le true t
  obtain ⟨hout, houtIff⟩ := sum_map_le fun t (_ : t ∈ slots a.outputs) => slotSize_le false t
  obtain ⟨hattr, hattrIff⟩ := sum_map_le (f := attrSize) fun x hx => attrSize_le (h x hx)
  have hnarrow : Narrow a ↔ (∀ t ∈ slots a.inputs, NarrowSlot true t) ∧
      (∀ t ∈ slots a.outputs, NarrowSlot false t) ∧ ∀ x ∈ a.attrs, NarrowAttr x :=
    ⟨fun ⟨h₁, h₂, h₃⟩ => ⟨h₁, h₂, h₃⟩, fun ⟨h₁, h₂, h₃⟩ => ⟨h₁, h₂, h₃⟩⟩
  rw [hnarrow, ← hinIff, ← houtIff, ← hattrIff]
  unfold keySize layoutLength itemsBytes
  rw [length_append, length_append]
  omega

/-- Narrow attributes can be copied in chunks. -/
theorem copyable_of_narrow (hsize : keySize a ≤ maxStatickeyLen) (h : Narrow a) :
    ∀ x ∈ a.attrs, x.Copyable := by
  intro x hx
  unfold AttrAddr.Copyable
  split
  next hv =>
    rcases h.attrs x hx hv with hsmall | hnone
    · exact .inl (by omega)
    · exact .inr hnone
  next hv =>
    have hle : attrSize x ≤ (a.attrs.map attrSize).sum :=
      le_sum_of_mem (mem_map_of_mem hx)
    have hround : x.data.length ≤ attrSize x := by
      unfold attrSize
      rw [if_neg hv]
      split <;> omega
    unfold keySize maxStatickeyLen at hsize
    omega

/-! ## The generator -/

/-- A key is rejected, or the size is the number of bytes that are written. -/
def SizeExact (hasher : UInt64 → UInt64) (sys : SysParams) (a : KeyArgs op) (k : BinInfoKey) :
    Prop :=
  (computeGenKeySize a).toNat ≤ maxStatickeyLen →
    ∃ k', genStaticKey hasher sys a k = some (true, k') ∧ k'.len = (computeGenKeySize a).toNat

/-- The sum stays in 32 bits, and nothing that is written is wider than it counts. -/
def SizeFits (a : KeyArgs op) : Prop :=
  keySize a < 2 ^ 32 ∧ (keySize a ≤ maxStatickeyLen → Narrow a)

/-- The static key is as long as its layout. -/
theorem length_staticKey (sys : SysParams)
    (h : op.opType.val.length ≤ (computeGenKeySize a).toNat + replayVerkeyExtBufLen)
    (hlen : (computeGenKeySize a).toNat ≤ maxStatickeyLen) :
    (staticKey sys a).length = layoutLength a := by
  unfold staticKey copied layoutLength
  unfold maxStatickeyLen at hlen
  rw [if_pos ⟨by unfold securecMemMaxLen replayVerkeyExtBufLen; omega, h⟩, length_append,
    length_append, length_settingWords]

theorem genStaticKey_len {k' : BinInfoKey}
    (hop : op.opType.val.length ≤ (computeGenKeySize a).toNat + replayVerkeyExtBufLen)
    (hlen : (computeGenKeySize a).toNat ≤ maxStatickeyLen)
    (h : genStaticKey hasher sys a k = some (true, k')) :
    k'.len = layoutLength a % 2 ^ 32 ∧ layoutLength a ≤ k'.verbose.length := by
  by_cases hnew : k.bufLen < (computeGenKeySize a).toNat
  · rw [genStaticKey_new hlen hnew] at h
    obtain ⟨c, hc, heq⟩ := Option.map_eq_some_iff.mp h
    cases heq
    have hpos := (Cursor.put_eq_some hc).2.2
    rw [length_staticKey sys hop hlen] at hpos
    have hzero : c.pos = layoutLength a := hpos.trans (Nat.zero_add _)
    exact ⟨congrArg (· % 2 ^ 32) hzero, hzero ▸ c.within⟩
  · rw [genStaticKey_again hlen (Nat.le_of_not_lt hnew)] at h
    obtain ⟨c, hc, heq⟩ := Option.map_eq_some_iff.mp h
    cases heq
    obtain ⟨c₀, hseek, hput⟩ := Option.bind_eq_some_iff.mp hc
    have hpos := (Cursor.put_eq_some hput).2.2
    rw [(Cursor.seek_eq_some hseek).2] at hpos
    have hend : c.pos = layoutLength a := hpos
    exact ⟨congrArg (· % 2 ^ 32) hend, hend ▸ c.within⟩

/-- If the layout fits the computed size, the key is written. -/
theorem genStaticKey_isSome (hasher : UInt64 → UInt64) (sys : SysParams) (hk : Sized k)
    (hop : op.opType.val.length ≤ (computeGenKeySize a).toNat + replayVerkeyExtBufLen)
    (hlen : (computeGenKeySize a).toNat ≤ maxStatickeyLen)
    (hfits : layoutLength a ≤ (computeGenKeySize a).toNat) :
    ∃ k', genStaticKey hasher sys a k = some (true, k') := by
  by_cases hnew : k.bufLen < (computeGenKeySize a).toNat
  · rw [genStaticKey_new hlen hnew, Cursor.put_of_le]
    · exact ⟨_, rfl⟩
    · show 0 + (staticKey sys a).length ≤ (List.replicate _ (0 : Byte)).length
      rw [length_staticKey sys hop hlen, length_replicate]
      omega
  · have hroom := hk.room
    have hfront : op.opType.val.length + 16 ≤ layoutLength a := Nat.le_add_right _ _
    rw [genStaticKey_again hlen (Nat.le_of_not_lt hnew), Cursor.seek_of_le (by omega),
      Option.bind_some, Cursor.put_of_le]
    · exact ⟨_, rfl⟩
    · show layoutLength a ≤ k.verbose.length
      omega

theorem opType_le (h : keySize a < 2 ^ 32) :
    op.opType.val.length ≤ (computeGenKeySize a).toNat + replayVerkeyExtBufLen := by
  rw [computeGenKeySize_eq h]
  unfold keySize
  omega

theorem sizeExact_of_fits (hk : Sized k) (h : SizeFits a) : SizeExact hasher sys a k := by
  intro hlen
  have hop := opType_le h.1
  have hsize : keySize a ≤ maxStatickeyLen := by rwa [← computeGenKeySize_eq h.1]
  have hnarrow := h.2 hsize
  have hlayout := (keySize_le (copyable_of_narrow hsize hnarrow)).2.mpr hnarrow
  have heq : layoutLength a = (computeGenKeySize a).toNat := by
    rw [computeGenKeySize_eq h.1, hlayout]
  obtain ⟨k', hk'⟩ := genStaticKey_isSome hasher sys hk hop hlen (Nat.le_of_eq heq)
  refine ⟨k', hk', ?_⟩
  rw [(genStaticKey_len hop hlen hk').1, heq]
  unfold maxStatickeyLen at hlen
  exact Nat.mod_eq_of_lt (by omega)

theorem fits_of_sizeExact (hk : Sized k) (hsize : keySize a < 2 ^ 32)
    (hcopy : ∀ x ∈ a.attrs, x.Copyable) (h : SizeExact hasher sys a k) : SizeFits a := by
  refine ⟨hsize, fun hmax => ?_⟩
  have hcompute := computeGenKeySize_eq hsize
  obtain ⟨k', hk', hlen⟩ := h (by rwa [hcompute])
  have hop := opType_le hsize
  obtain ⟨hend, hroom⟩ := genStaticKey_len hop (by rwa [hcompute]) hk'
  have hreach := (sized_genStaticKey hk hk').reach
  obtain ⟨hle, hiff⟩ := keySize_le hcopy
  apply hiff.mp
  have hfront : 16 ≤ keySize a := by
    unfold keySize
    omega
  rw [hend, hcompute] at hlen
  dsimp only at hreach
  unfold verkeyExtBufLen at hreach
  unfold maxStatickeyLen at hmax
  -- a length that wraps around would have to come out below 16
  omega

/-- The size is that of the key for keys below 4 GiB whose vectors have narrow elements and, where
all attributes can be copied, for no others. -/
theorem static_key_size (hasher : UInt64 → UInt64) (sys : SysParams) (a : KeyArgs op)
    (k : BinInfoKey) (hk : Reached hasher op k) :
    (SizeFits a → SizeExact hasher sys a k) ∧
      (keySize a < 2 ^ 32 → (∀ x ∈ a.attrs, x.Copyable) → SizeExact hasher sys a k → SizeFits a) :=
  ⟨sizeExact_of_fits hk.sized, fits_of_sizeExact hk.sized⟩

/-- An op without tensors, named `Add`. -/
def attrOp : Op := ⟨⟨[65, 100, 100], by decide, by decide⟩, [], []⟩

/-- No parameters. -/
def noTensors : Tensors := ⟨[], [], 0, 0, 0, 0, 0, 0⟩

/-- Its arguments. -/
def attrArgs (attrs : List AttrAddr) : KeyArgs attrOp where
  inputs := noTensors
  outputs := noTensors
  attrs := attrs
  inputs_signature := rfl
  outputs_signature := rfl
  inputs_slots := ⟨Nat.le_refl 0, fun _ h => (nomatch h)⟩
  outputs_slots := ⟨Nat.le_refl 0, fun _ h => (nomatch h)⟩

/-- A scalar of five bytes and two elements of four bytes each. -/
theorem static_key_size_attrs :
    SizeExact id ⟨false, 0⟩ (attrArgs [⟨[1, 2, 3, 4, 5], 0⟩, ⟨List.replicate 8 7, 4⟩]) .fresh :=
  (static_key_size id ⟨false, 0⟩ (attrArgs [⟨[1, 2, 3, 4, 5], 0⟩, ⟨List.replicate 8 7, 4⟩]) .fresh
    ⟨[], rfl⟩).1
    ⟨by decide, fun _ =>
      { inputs := fun _ h => (nomatch h)
        outputs := fun _ h => (nomatch h)
        attrs := fun x hx _ => .inl (by revert x; decide) }⟩

theorem genStaticKey_wide (h : data.length = 512) :
    genStaticKey id ⟨false, 0⟩ (attrArgs [⟨data, 16⟩]) .fresh = none := by
  have hkey : keySize (attrArgs [⟨data, 16⟩]) = 275 := by
    show 3 + 16 + 0 + 0 + (data.length / 16 * 8 + 0) = 275
    rw [h]
  have hsize : (computeGenKeySize (attrArgs [⟨data, 16⟩])).toNat = 275 := by
    rw [computeGenKeySize_eq (by rw [hkey]; decide), hkey]
  have hlayout : layoutLength (attrArgs [⟨data, 16⟩]) = 531 := by
    show 3 + 16 + ((chunks 16 data).flatMap wordsBytes ++ []).length = 531
    rw [append_nil, length_valuesBytes (.inl (by decide)), h]
  rw [genStaticKey_new (by rw [hsize]; decide) (by rw [hsize]; decide), Cursor.put_eq_none]
  · rfl
  · show (List.replicate _ (0 : Byte)).length < 0 + (staticKey ⟨false, 0⟩ _).length
    rw [length_staticKey _ (by rw [hsize]; decide) (by rw [hsize]; decide), hlayout,
      length_replicate, hsize]
    decide

/-- One element of sixteen bytes is written as two words and counts for one; with 32 of them
the last word lies behind the buffer. -/
theorem static_key_overrun :
    ¬ SizeExact id ⟨false, 0⟩ (attrArgs [⟨List.replicate 16 0, 16⟩]) .fresh ∧
      genStaticKey id ⟨false, 0⟩ (attrArgs [⟨List.replicate 512 0, 16⟩]) .fresh = none := by
  constructor
  · intro h
    have hfits := fits_of_sizeExact sized_fresh (by decide) (by decide) h
    have hnarrow := (hfits.2 (by decide)).attrs _ mem_cons_self rfl
    revert hnarrow
    decide
  · exact genStaticKey_wide length_replicate

end OpBase.Indv.BinKey
