import OpBase.Indv.AddTensors
import OpBase.Indv.BinKeyHistory

/-!
# The key of a static-kernel lookup

`individual_op/api/individual_op_api.cpp`: `NnopbaseFindStaticKernel` has no executor. It is
given the tensors in one array, the inputs first, and writes the key with a generator of its
own (`NnopbaseCollecterGenStaticKey`, `individual_op/executor/indv_collecter.cpp`) into an array
of `NNOPBASE_MAX_STATICKEY_LEN` bytes that every call of the thread goes on using.

Tensor by tensor that generator writes what `NnopbaseExecutorGenStaticKey` does, with three
exceptions. It tells the type and the format of every tensor, the executor only those of the
first in a list; it tells the format of the tensor, which an executor may have replaced by ND;
and it copies `TypeSize` bytes for each element, which for types of less than a byte is more
than the tensor has.

> `static_keys_agree`: the two keys are the same if and only if the fronts are, no tensor is
> one of the exceptions, and the key fits the array.

An access outside an array is `none`; so is a read behind the bytes of a tensor. The number
of elements (`gert::Shape::GetShapeSize`) is a parameter.
-/

namespace OpBase.Indv.BinKey

open List OpBase.Lib
open OpBase.Cache.Key (securecMemMaxLen)

/-- `NnopbaseAttrAddr`, as the lookup is given it. -/
structure GivenAttr where
  data : List Byte
  isVector : Bool
  elementSize : Nat
deriving DecidableEq

/-- What the lookup is given for an attribute that an executor holds. -/
def AttrAddr.given (a : AttrAddr) : GivenAttr := ⟨a.data, a.isVector, a.elementSize⟩

/-- The arguments of `NnopbaseFindStaticKernel`. -/
structure Lookup where
  opType : List Byte
  tensors : List (Option AclTensor)
  attrs : List (Option GivenAttr)
  implMode : Int64
  deterMin : Int64
  vDepend : List Nat

/-! ## The generator -/

/-- `valueDepend`, with a flag for every tensor. -/
def markValueDepend (numTensors : Nat) (vDepend : List Nat) : Option (List Bool) :=
  vDepend.foldlM
    (fun flags i => if i < flags.length then some (flags.set i true) else none)
    (List.replicate numTensors false)

/-- The body of the loop over the elements. -/
def collectValue (t : AclTensor) (c : Cursor) (k : Nat) : Option Cursor :=
  if typeSize t.dataType * (k + 1) ≤ t.data.length then
    executor8ByteCopy ((t.data.drop (typeSize t.dataType * k)).take (typeSize t.dataType)) c
  else none

/-- `aclTensor::Size`. -/
def elementSize (getShapeSize : Shape → ℤ) (t : AclTensor) : Nat :=
  (getShapeSize t.storageShape).toNat

/-- The body of the loop over the tensors. -/
def collectTensor (getShapeSize : Shape → ℤ) (c : Cursor) (x : Option AclTensor × Bool) :
    Option Cursor :=
  match x.1 with
  | none => c.put (le8 nullMark)
  | some t => do
    let c ← c.put (le8 t.dataType.code.toUInt64)
    let c ← c.put (le8 t.storageFormat.toUInt64)
    let c ← t.storageShape.val.foldlM (fun c d => c.put (le8 d.toUInt64)) c
    if x.2 then (List.range (elementSize getShapeSize t)).foldlM (collectValue t) c else some c

/-- The body of the loop over the attributes; there is no element of size 0 to divide by. -/
def collectAttr (c : Cursor) : Option GivenAttr → Option Cursor
  | none => c.put (le8 nullMark)
  | some a =>
    if a.isVector then
      if a.elementSize = 0 then none
      else (chunks a.elementSize a.data).foldlM (fun c e => executor8ByteCopy e c) c
    else executor8ByteCopy a.data c

/-- `NnopbaseCollecterGenStaticKey`. -/
def collecterGenStaticKey (getShapeSize : Shape → ℤ) (l : Lookup) (c : Cursor) : Option Cursor := do
  let c ← appendBinary maxStatickeyLen l.opType c
  let c ← c.put (le8 l.deterMin.toUInt64)
  let c ← c.put (le8 l.implMode.toUInt64)
  let valueDepend ← markValueDepend l.tensors.length l.vDepend
  let c ← (l.tensors.zip valueDepend).foldlM (collectTensor getShapeSize) c
  l.attrs.foldlM collectAttr c

/-- `verbose` of `NnopbaseFindStaticKernel`, with what earlier calls left in it. -/
abbrev Verbose := { buf : List Byte // buf.length = maxStatickeyLen }

/-! ## The same arguments -/

/-- An element count, and the bytes that belong to it. -/
structure Sound (getShapeSize : Shape → ℤ) (t : AclTensor) : Prop where
  elements : 0 ≤ getShapeSize t.viewShape
  bytes : (t.data.length : ℤ) = calcShapeBytes (getShapeSize t.viewShape) t.dataType false
  shapes : t.viewShape = t.storageShape

/-- The slot holds the tensor. -/
def HoldsTensor (opt : FormatCheckOption) (slot : ExtTensor) (x : Option AclTensor × Bool) : Prop :=
  match x.1 with
  | none => slot.isNull = true
  | some t => slot.isNull = false ∧ slot.rt2Tensor = t.saved opt ∧ slot.valueDepend = x.2

/-- The tensors, with what is said of their values. -/
def Lookup.flagged (l : Lookup) : List (Option AclTensor × Bool) :=
  l.tensors.zip ((List.range l.tensors.length).map fun i => decide (i ∈ l.vDepend))

variable {op : Op}

/-- An executor of the op holds what the lookup is given. -/
structure Holds (opt : FormatCheckOption) (sys : SysParams) (a : KeyArgs op) (l : Lookup) :
    Prop where
  opType : l.opType = op.opType.val
  deterministic : l.deterMin.toUInt64 = sys.deterministic.toUInt64
  precision : l.implMode.toUInt64 = sys.precision.toUInt64
  tensors : List.Forall₂ (HoldsTensor opt) (slots a.inputs ++ slots a.outputs) l.flagged
  attrs : l.attrs = a.attrs.map fun x => some x.given
  values : ∀ i ∈ l.vDepend, i < l.tensors.length

/-! ## What the lookup writes -/

variable {getShapeSize : Shape → ℤ} {opt : FormatCheckOption} {x : Option AclTensor × Bool}

/-- The words of the first elements of the tensor. -/
def valuesBytes (t : AclTensor) (n : Nat) : List Byte :=
  (List.range n).flatMap fun k =>
    wordsBytes ((t.data.drop (typeSize t.dataType * k)).take (typeSize t.dataType))

def collectedBytes (getShapeSize : Shape → ℤ) (x : Option AclTensor × Bool) : List Byte :=
  match x.1 with
  | none => le8 nullMark
  | some t =>
    le8 t.dataType.code.toUInt64 ++ (le8 t.storageFormat.toUInt64 ++
      (t.storageShape.val.flatMap (fun d => le8 d.toUInt64) ++
        if x.2 then valuesBytes t (elementSize getShapeSize t) else []))

/-- The tensor has the bytes that its values are read from. -/
def Readable (getShapeSize : Shape → ℤ) (x : Option AclTensor × Bool) : Prop :=
  ∀ t, x.1 = some t → x.2 = true → typeSize t.dataType * elementSize getShapeSize t ≤ t.data.length

theorem collectTensor_writes (h : Readable getShapeSize x) :
    Writes (collectTensor getShapeSize · x) (collectedBytes getShapeSize x) := by
  obtain ⟨t | t, flag⟩ := x
  · exact Writes.put _
  · refine Writes.bind (Writes.put _) (Writes.bind (Writes.put _) (Writes.bind ?_ ?_))
    · exact Writes.foldlM fun d _ => Writes.put _
    · refine Writes.ite (fun hflag => Writes.foldlM fun k hk => ?_) fun _ => Writes.nothing
      have hread : typeSize t.dataType * (k + 1) ≤ t.data.length :=
        Nat.le_trans (Nat.mul_le_mul_left _ (mem_range.mp hk)) (h t rfl hflag)
      exact fun c => (if_pos hread).trans (executor8ByteCopy_writes _ c)

theorem foldlM_eq_none {α : Type} {f : Cursor → α → Option Cursor} {xs : List α} {y : α}
    (hy : y ∈ xs) (h : ∀ c, f c y = none) (c : Cursor) : xs.foldlM f c = none := by
  induction xs generalizing c with
  | nil => cases hy
  | cons x xs ih =>
    rw [foldlM_cons]
    rcases mem_cons.mp hy with rfl | hmem
    · rw [h]
      rfl
    · refine Option.bind_eq_none_iff.mpr fun d _ => ih hmem d

theorem collectTensor_eq_none (h : ¬ Readable getShapeSize x) (c : Cursor) :
    collectTensor getShapeSize c x = none := by
  obtain ⟨t | t, flag⟩ := x
  · exact absurd (fun t ht => (nomatch ht)) h
  · have hflag : flag = true := by
      cases flag with
      | true => rfl
      | false => exact absurd (fun _ _ hflag => (nomatch hflag)) h
    subst hflag
    have hlong : t.data.length < typeSize t.dataType * elementSize getShapeSize t := by
      refine Nat.lt_of_not_le fun hle => h fun t' ht' _ => ?_
      cases ht'
      exact hle
    have hpos : 0 < elementSize getShapeSize t := by
      refine Nat.pos_of_ne_zero fun hzero => ?_
      rw [hzero] at hlong
      exact absurd hlong (Nat.not_lt_zero _)
    refine Option.bind_eq_none_iff.mpr fun _ _ => Option.bind_eq_none_iff.mpr fun _ _ =>
      Option.bind_eq_none_iff.mpr fun c' _ => ?_
    -- the last element is not there
    refine foldlM_eq_none (y := elementSize getShapeSize t - 1) (mem_range.mpr (by omega))
      (fun c => if_neg ?_) c'
    rw [Nat.sub_add_cancel hpos]
    exact Nat.not_le.mpr hlong

theorem foldlM_set (vDepend : List Nat) (flags : List Bool) (h : ∀ i ∈ vDepend, i < flags.length) :
    vDepend.foldlM
        (fun flags i => if i < flags.length then some (flags.set i true) else none) flags =
      some (flags.mapIdx fun i b => b || decide (i ∈ vDepend)) := by
  induction vDepend generalizing flags with
  | nil =>
    refine congrArg some (ext_getElem? fun i => ?_)
    rw [getElem?_mapIdx]
    cases flags[i]? with
    | none => rfl
    | some b => simp
  | cons v vs ih =>
    have hv := h v mem_cons_self
    rw [foldlM_cons, if_pos hv]
    refine (ih (flags.set v true) fun i hi => ?_).trans (congrArg some (ext_getElem? fun i => ?_))
    · rw [length_set]
      exact h i (mem_cons_of_mem v hi)
    · rw [getElem?_mapIdx, getElem?_mapIdx, getElem?_set]
      by_cases hi : v = i
      · subst hi
        rw [if_pos rfl, if_pos hv, getElem?_eq_getElem hv]
        simp
      · rw [if_neg hi]
        cases flags[i]? with
        | none => rfl
        | some b => simp [mem_cons, Ne.symm hi]

theorem markValueDepend_eq {numTensors : Nat} {vDepend : List Nat}
    (h : ∀ i ∈ vDepend, i < numTensors) :
    markValueDepend numTensors vDepend =
      some ((List.range numTensors).map fun i => decide (i ∈ vDepend)) := by
  refine (foldlM_set vDepend _ (by rwa [length_replicate])).trans
    (congrArg some (ext_getElem? fun i => ?_))
  rw [getElem?_mapIdx, getElem?_map, getElem?_replicate]
  by_cases hi : i < numTensors
  · rw [if_pos hi, getElem?_range hi]
    simp
  · rw [if_neg hi, getElem?_eq_none (by rw [length_range]; omega)]
    rfl

theorem collectAttr_writes (a : AttrAddr) :
    Writes (collectAttr · (some a.given)) (attrBytes a) := by
  have helement : a.isVector = true → ¬ a.elementSize = 0 := of_decide_eq_true
  refine Writes.ite (fun hv => ?_) fun _ => executor8ByteCopy_writes a.data
  intro c
  show (if a.elementSize = 0 then none else _) = _
  rw [if_neg (helement hv)]
  exact Writes.foldlM (fun e _ => executor8ByteCopy_writes e) c

theorem appendBinary_any {buf : List Byte} (src : List Byte)
    (hbuf : buf.length ≤ securecMemMaxLen) :
    ∃ buf', buf'.length = buf.length ∧
      appendBinary buf.length src (Cursor.start buf) =
        (Cursor.start buf').put (copied buf.length src) := by
  unfold appendBinary copied
  rw [if_neg (Nat.not_lt.mpr hbuf)]
  by_cases hsrc : src.length ≤ buf.length
  · rw [if_pos hsrc, if_pos ⟨hbuf, hsrc⟩]
    exact ⟨buf, rfl, rfl⟩
  · rw [if_neg hsrc, if_neg fun h => hsrc h.2]
    have hroom : (Cursor.start buf).pos + (List.replicate buf.length (0 : Byte)).length ≤
        (Cursor.start buf).buf.length := by
      show 0 + _ ≤ buf.length
      rw [length_replicate, Nat.zero_add]
    rw [Cursor.put_of_le hroom]
    refine ⟨_, length_patch hroom, ?_⟩
    exact (Cursor.seek_of_le (Nat.zero_le _)).trans (Cursor.put_nil _).symm

variable {sys : SysParams} {a : KeyArgs op} {l : Lookup}

/-- What the lookup writes behind the op type. -/
def lookupBytes (getShapeSize : Shape → ℤ) (sys : SysParams) (a : KeyArgs op) (l : Lookup) :
    List Byte :=
  settingWords sys ++ (l.flagged.flatMap (collectedBytes getShapeSize) ++ a.attrs.flatMap attrBytes)

theorem collecterGenStaticKey_eq_none (h : Holds opt sys a l)
    (hread : ¬ ∀ x ∈ l.flagged, Readable getShapeSize x) (c : Cursor) :
    collecterGenStaticKey getShapeSize l c = none := by
  obtain ⟨x, hx, hbad⟩ : ∃ x ∈ l.flagged, ¬ Readable getShapeSize x := by
    by_contra hall
    exact hread fun x hx => by_contra fun hbad => hall ⟨x, hx, hbad⟩
  unfold collecterGenStaticKey
  rw [markValueDepend_eq h.values]
  refine Option.bind_eq_none_iff.mpr fun _ _ => Option.bind_eq_none_iff.mpr fun _ _ =>
    Option.bind_eq_none_iff.mpr fun c _ => ?_
  show ((l.flagged.foldlM (collectTensor getShapeSize) c).bind _) = none
  rw [foldlM_eq_none hx (collectTensor_eq_none hbad)]
  rfl

/-! ## Slot by slot -/

theorem wrapInt64_le {z : ℤ} (h : -2 ^ 63 ≤ z) : wrapInt64 z ≤ z := by
  unfold wrapInt64
  rw [Int.bmod_def]
  split <;> omega

theorem le_wrapInt64 (z : ℤ) : -2 ^ 63 ≤ wrapInt64 z := Int.le_bmod (by decide)

/-- A tensor has no more bytes than `TypeSize` for each element. -/
theorem Sound.data_le {t : AclTensor} (h : Sound getShapeSize t) :
    t.data.length ≤ typeSize t.dataType * elementSize getShapeSize t := by
  obtain ⟨hsize, hbytes, hview⟩ := h
  unfold elementSize
  rw [← hview]
  generalize getShapeSize t.viewShape = size at hsize hbytes
  obtain ⟨n, rfl⟩ := Int.eq_ofNat_of_zero_le hsize
  rw [Int.toNat_natCast]
  unfold calcShapeBytes mulOverflow kDataTypeSizeBitOffset at hbytes
  split at hbytes
  next hbits =>
    -- a number of bits, rounded up to bytes
    have hbitNum := wrapInt64_le (z := ((typeSize t.dataType - 1000 : ℕ) : ℤ) * n)
      (Int.le_trans (by decide) (Int.mul_nonneg (Int.natCast_nonneg _) (Int.natCast_nonneg _)))
    have hlow := le_wrapInt64 (((typeSize t.dataType - 1000 : ℕ) : ℤ) * n)
    have hround := wrapInt64_le
      (z := wrapInt64 (((typeSize t.dataType - 1000 : ℕ) : ℤ) * n) + 7) (by omega)
    have hmul : (typeSize t.dataType - 1000) * n + 1000 * n = typeSize t.dataType * n := by
      rw [← Nat.add_mul]
      congr 1
      omega
    dsimp only at hbytes
    rw [if_pos (show (!false) = true from rfl), Int.shiftRight_eq_div_pow] at hbytes
    rw [← Int.natCast_mul] at hbitNum hlow hround hbytes
    omega
  next =>
    have hle := wrapInt64_le (z := (typeSize t.dataType : ℤ) * n)
      (Int.le_trans (by decide) (Int.mul_nonneg (Int.natCast_nonneg _) (Int.natCast_nonneg _)))
    rw [← Int.natCast_mul] at hle hbytes
    dsimp only at hbytes
    omega

theorem valuesBytes_eq {t : AclTensor} {n : Nat} (hread : typeSize t.dataType * n ≤ t.data.length)
    (hle : t.data.length ≤ typeSize t.dataType * n) :
    valuesBytes t n = (chunks (typeSize t.dataType) t.data).flatMap wordsBytes := by
  have hcount : t.data.length / typeSize t.dataType = n := by
    rw [Nat.le_antisymm hle hread]
    exact Nat.mul_div_cancel_left n (typeSize_pos t.dataType)
  unfold valuesBytes chunks
  rw [hcount, flatMap_map]

/-- An executor that holds the tensor tells its type and its own format. -/
def Told (opt : FormatCheckOption) (slot : ExtTensor) (x : Option AclTensor × Bool) : Prop :=
  ∀ t, x.1 = some t →
    (slot.isRequired || slot.isOptional) = true ∧ needSetFormat t.storageFormat opt = false

theorem formatND_notin : formatND ∉ formatsLikeND := by decide

theorem saved_format (opt : FormatCheckOption) (t : AclTensor) :
    (t.saved opt).storageFormat = t.storageFormat ↔ needSetFormat t.storageFormat opt = false := by
  unfold AclTensor.saved
  cases hset : needSetFormat t.storageFormat opt with
  | false => exact iff_of_true rfl rfl
  | true =>
    refine iff_of_false (fun heq => ?_) nofun
    have hmem : t.storageFormat ∈ formatsLikeND := (of_decide_eq_true hset).2
    exact formatND_notin ((show formatND = t.storageFormat from heq) ▸ hmem)

/-- The bytes of a slot are the collected ones just when it was told of the same tensor; they are
never more. -/
theorem slotBytes_eq_iff {slot : ExtTensor} (hslot : HoldsTensor opt slot x)
    (hread : Readable getShapeSize x) (hsound : ∀ t, x.1 = some t → Sound getShapeSize t) :
    (slotBytes slot).length ≤ (collectedBytes getShapeSize x).length ∧
      (slotBytes slot = collectedBytes getShapeSize x ↔ Told opt slot x) := by
  obtain ⟨t | t, flag⟩ := x
  · unfold slotBytes
    rw [if_pos (show slot.isNull = true from hslot)]
    exact ⟨Nat.le_refl _, iff_of_true rfl nofun⟩
  · obtain ⟨hnull, htensor, hflag⟩ := hslot
    have hs := hsound t rfl
    -- behind the type and the format both write the same
    obtain ⟨rest, hrest, hrest'⟩ : ∃ rest, slotBytes slot =
        (if slot.isRequired || slot.isOptional then
          le8 t.dataType.code.toUInt64 ++ le8 (t.saved opt).storageFormat.toUInt64
          else []) ++ rest ∧
        collectedBytes getShapeSize (some t, flag) =
          le8 t.dataType.code.toUInt64 ++ le8 t.storageFormat.toUInt64 ++ rest := by
      refine ⟨t.storageShape.val.flatMap (fun d => le8 d.toUInt64) ++
        if flag then valuesBytes t (elementSize getShapeSize t) else [], ?_, ?_⟩
      · unfold slotBytes
        rw [hnull, htensor, hflag, append_assoc]
        show _ ++ (t.viewShape.val.flatMap _ ++ _) = _
        rw [hs.shapes]
        cases flag with
        | false => rfl
        | true => rw [valuesBytes_eq (hread t rfl rfl) hs.data_le]; rfl
      · show _ ++ (_ ++ (_ ++ _)) = _
        rw [append_assoc]
    have htold : Told opt slot (some t, flag) ↔ (slot.isRequired || slot.isOptional) = true ∧
        needSetFormat t.storageFormat opt = false :=
      ⟨fun h => h t rfl, fun h t' ht => by cases ht; exact h⟩
    rw [hrest, hrest', append_left_inj, htold, length_append, length_append]
    cases slot.isRequired || slot.isOptional with
    | false =>
      refine ⟨Nat.add_le_add_right (Nat.zero_le _) _, iff_of_false (fun heq => ?_) nofun⟩
      have := congrArg List.length heq
      rw [length_append, length_le8] at this
      cases this
    | true =>
      refine ⟨Nat.le_of_eq ?_, ?_⟩
      · rw [if_pos rfl, length_append, length_append, length_le8, length_le8, length_le8]
      · rw [if_pos rfl, append_right_inj, le8_inj, UInt32.toUInt64_inj, saved_format]
        exact (and_iff_right rfl).symm

theorem flatMap_eq_iff {α β γ : Type} {f : α → List γ} {g : β → List γ} {xs : List α} {ys : List β}
    (h : List.Forall₂ (fun x y => (f x).length ≤ (g y).length) xs ys) :
    (xs.flatMap f).length ≤ (ys.flatMap g).length ∧
      (xs.flatMap f = ys.flatMap g ↔ List.Forall₂ (fun x y => f x = g y) xs ys) := by
  induction h with
  | nil => exact ⟨Nat.le_refl 0, iff_of_true rfl .nil⟩
  | @cons x y xs ys hxy _ ih =>
    obtain ⟨hle, hiff⟩ := ih
    rw [flatMap_cons, flatMap_cons, length_append, length_append, forall₂_cons, ← hiff]
    refine ⟨by omega, fun heq => ?_, fun ⟨hhead, htail⟩ => by rw [hhead, htail]⟩
    have hlength := congrArg List.length heq
    rw [length_append, length_append] at hlength
    exact append_inj heq (by omega)

/-! ## The length -/

/-- The bytes that a value of `size` bytes takes; a copy of 2³¹ bytes or more is refused. -/
def wordsLength (size : Nat) : Nat :=
  (if 8 * (size / 8) ≤ securecMemMaxLen then 8 * (size / 8) else 0) + if size % 8 ≠ 0 then 8 else 0

/-- What a tensor takes in the lookup's key. -/
def tensorLength (getShapeSize : Shape → ℤ) (x : Option AclTensor × Bool) : Nat :=
  match x.1 with
  | none => 8
  | some t =>
    16 + t.storageShape.val.length * 8 +
      if x.2 then elementSize getShapeSize t * wordsLength (typeSize t.dataType) else 0

def attrLength (a : AttrAddr) : Nat :=
  if a.isVector then a.data.length / a.elementSize * wordsLength a.elementSize
  else wordsLength a.data.length

/-- What the lookup's key takes. -/
def lookupLength (getShapeSize : Shape → ℤ) (a : KeyArgs op) (l : Lookup) : Nat :=
  (if op.opType.val.length ≤ maxStatickeyLen then op.opType.val.length else 0) + 16 +
    (l.flagged.map (tensorLength getShapeSize)).sum + (a.attrs.map attrLength).sum

theorem length_wordsBytes_eq (data : List Byte) :
    (wordsBytes data).length = wordsLength data.length := by
  have htake : (data.take (8 * (data.length / 8))).length = 8 * (data.length / 8) := by
    rw [length_take]
    omega
  unfold wordsBytes wordsLength copied
  dsimp only
  rw [htake, length_append]
  congr 1
  · split
    next h => rw [if_pos h.1, htake]
    next h => rw [if_neg fun hle => h ⟨hle, Nat.le_refl _⟩, length_nil]
  · split
    next => rw [length_le8]
    next => rfl

theorem length_attrBytes (a : AttrAddr) : (attrBytes a).length = attrLength a := by
  unfold attrBytes attrLength
  split
  next =>
    rw [length_flatMap_mem fun e he => by rw [length_wordsBytes_eq, length_chunk he], length_chunks]
  next => exact length_wordsBytes_eq a.data

theorem length_collectedBytes (h : Readable getShapeSize x) :
    (collectedBytes getShapeSize x).length = tensorLength getShapeSize x := by
  obtain ⟨t | t, flag⟩ := x
  · exact length_le8 _
  · have hvalues : flag = true → (valuesBytes t (elementSize getShapeSize t)).length =
        elementSize getShapeSize t * wordsLength (typeSize t.dataType) := by
      intro hflag
      refine (length_flatMap_mem fun k hk => ?_).trans (by rw [length_range])
      have hread := h t rfl hflag
      have hend := Nat.mul_le_mul_left (typeSize t.dataType) (mem_range.mp hk)
      rw [Nat.mul_succ] at hend
      rw [length_wordsBytes_eq, length_take, length_drop]
      congr 1
      omega
    unfold collectedBytes tensorLength
    simp only [length_append, length_le8, length_dims]
    cases flag with
    | false => simp only [Bool.false_eq_true, if_false, length_nil]; omega
    | true => rw [if_pos rfl, if_pos rfl, hvalues rfl]; omega

theorem length_lookup (sys : SysParams) (a : KeyArgs op)
    (hread : ∀ x ∈ l.flagged, Readable getShapeSize x) :
    (copied maxStatickeyLen op.opType.val ++ lookupBytes getShapeSize sys a l).length =
      lookupLength getShapeSize a l := by
  have hop : (copied maxStatickeyLen op.opType.val).length =
      if op.opType.val.length ≤ maxStatickeyLen then op.opType.val.length else 0 := by
    unfold copied
    split
    next h => rw [if_pos h.2]
    next h => rw [if_neg fun hle => h ⟨by decide, hle⟩, length_nil]
  have htensors : l.flagged.map (fun x => (collectedBytes getShapeSize x).length) =
      l.flagged.map (tensorLength getShapeSize) :=
    map_congr_left fun x hx => length_collectedBytes (hread x hx)
  have hattrs : a.attrs.map (fun x => (attrBytes x).length) = a.attrs.map attrLength :=
    map_congr_left fun x _ => length_attrBytes x
  unfold lookupBytes lookupLength
  rw [length_append, length_append, length_append, length_settingWords, hop,
    length_flatMap, length_flatMap, htensors, hattrs]
  omega

/-! ## The front -/

variable {hasher : UInt64 → UInt64} {k : BinInfoKey} {k' : BinInfoKey} {src : List Byte}

/-- What an executor's key has in front of the items: in a buffer that is kept, what is
there. -/
def keyFront (sys : SysParams) (a : KeyArgs op) (k : BinInfoKey) : List Byte :=
  let len := (computeGenKeySize a).toNat
  if k.bufLen < len then copied (len + replayVerkeyExtBufLen) op.opType.val ++ settingWords sys
  else k.verbose.take (op.opType.val.length + 16)

/-- What the executor's key is made of, and when its header is the one of this call. -/
theorem executor_key (h : genStaticKey hasher sys a k = some (true, k'))
    (hshort : layoutLength a < 2 ^ 32) :
    (computeGenKeySize a).toNat ≤ maxStatickeyLen ∧
      k'.key.1 = keyFront sys a k ++ itemsBytes a ∧
      (¬ k.bufLen < (computeGenKeySize a).toNat →
        (keyFront sys a k).length = op.opType.val.length + 16) := by
  by_cases hlen : (computeGenKeySize a).toNat ≤ maxStatickeyLen
  · refine ⟨hlen, ?_⟩
    unfold keyFront
    dsimp only
    -- a larger buffer is made anew, an old one keeps the front of the last key
    by_cases hnew : k.bufLen < (computeGenKeySize a).toNat
    · rw [genStaticKey_new hlen hnew] at h
      obtain ⟨c, hc, heq⟩ := Option.map_eq_some_iff.mp h
      cases heq
      have hfits := start_put_isSome.mp ⟨c, hc⟩
      unfold maxStatickeyLen at hlen
      unfold replayVerkeyExtBufLen at hfits
      rw [key_of_start hc (by omega), if_pos hnew]
      exact ⟨rfl, fun hold => absurd hnew hold⟩
    · obtain ⟨hroom, -, hkey⟩ := static_again hlen (Nat.le_of_not_lt hnew) h
      have hfront : op.opType.val.length + 16 ≤ layoutLength a := Nat.le_add_right _ _
      rw [if_neg hnew]
      refine ⟨congrArg Prod.fst (hkey hshort), fun _ => ?_⟩
      rw [length_take]
      omega
  · unfold genStaticKey at h
    rw [if_pos (Nat.lt_of_not_le hlen)] at h
    cases h

/-- In a new buffer the op type is copied by both or by neither; in one that is kept, it
stands there, with the settings. -/
def FrontAgrees (sys : SysParams) (a : KeyArgs op) (k : BinInfoKey) : Prop :=
  let len := (computeGenKeySize a).toNat
  if k.bufLen < len then
    op.opType.val.length ≤ len + replayVerkeyExtBufLen ↔ op.opType.val.length ≤ maxStatickeyLen
  else
    op.opType.val.length ≤ maxStatickeyLen ∧ op.opType.val ++ settingWords sys <+: k.verbose

theorem copied_of_le {bufLen : Nat} (hbuf : bufLen ≤ securecMemMaxLen) (h : src.length ≤ bufLen) :
    copied bufLen src = src := if_pos ⟨hbuf, h⟩

theorem copied_of_lt {bufLen : Nat} (h : bufLen < src.length) :
    copied bufLen src = [] := if_neg fun hle => absurd hle.2 (Nat.not_le.mpr h)

theorem copied_eq_iff {m n : Nat} (hm : m ≤ securecMemMaxLen) (hn : n ≤ securecMemMaxLen) :
    copied m src = copied n src ↔ (src.length ≤ m ↔ src.length ≤ n) := by
  by_cases h : src.length ≤ m
  · by_cases h' : src.length ≤ n
    · rw [copied_of_le hm h, copied_of_le hn h']
      exact iff_of_true rfl (iff_of_true h h')
    · rw [copied_of_le hm h, copied_of_lt (Nat.lt_of_not_le h')]
      refine iff_of_false (fun hnil => ?_) fun hiff => h' (hiff.mp h)
      rw [hnil] at h'
      exact h' (Nat.zero_le n)
  · by_cases h' : src.length ≤ n
    · rw [copied_of_lt (Nat.lt_of_not_le h), copied_of_le hn h']
      refine iff_of_false (fun hnil => ?_) fun hiff => h (hiff.mpr h')
      rw [← hnil] at h
      exact h (Nat.zero_le m)
    · rw [copied_of_lt (Nat.lt_of_not_le h), copied_of_lt (Nat.lt_of_not_le h')]
      exact iff_of_true rfl (iff_of_false h h')

theorem length_keyFront (hold : ¬ k.bufLen < (computeGenKeySize a).toNat →
      (keyFront sys a k).length = op.opType.val.length + 16) :
    (keyFront sys a k).length = 16 ∨ (keyFront sys a k).length = op.opType.val.length + 16 := by
  by_cases hnew : k.bufLen < (computeGenKeySize a).toNat
  · unfold keyFront
    dsimp only
    rw [if_pos hnew, length_append, length_settingWords]
    rcases copied_eq_or ((computeGenKeySize a).toNat + replayVerkeyExtBufLen) op.opType.val with
      heq | heq
    · rw [heq]
      exact .inr rfl
    · rw [heq]
      exact .inl rfl
  · exact .inr (hold hnew)

theorem keyFront_eq_iff (hlen : (computeGenKeySize a).toNat ≤ maxStatickeyLen)
    (hold : ¬ k.bufLen < (computeGenKeySize a).toNat →
      (keyFront sys a k).length = op.opType.val.length + 16) :
    keyFront sys a k = copied maxStatickeyLen op.opType.val ++ settingWords sys ↔
      FrontAgrees sys a k := by
  have hmax : maxStatickeyLen ≤ securecMemMaxLen := by decide
  unfold FrontAgrees
  unfold keyFront at hold ⊢
  dsimp only at hold ⊢
  by_cases hnew : k.bufLen < (computeGenKeySize a).toNat
  · rw [if_pos hnew, if_pos hnew, append_left_inj]
    refine copied_eq_iff ?_ hmax
    unfold maxStatickeyLen at hlen
    unfold securecMemMaxLen replayVerkeyExtBufLen
    omega
  · rw [if_neg hnew] at hold
    have hlength := hold hnew
    rw [if_neg hnew, if_neg hnew]
    by_cases hop : op.opType.val.length ≤ maxStatickeyLen
    · rw [copied_of_le hmax hop, and_iff_right hop, prefix_iff_eq_take, length_front, eq_comm]
    · refine iff_of_false (fun heq => ?_) fun h => hop h.1
      rw [heq, copied_of_lt (Nat.lt_of_not_le hop), nil_append, length_settingWords] at hlength
      omega

/-! ## Both keys -/

/-- The lookup writes the bytes of the executor's key. -/
def KeysAgree (getShapeSize : Shape → ℤ) (l : Lookup) (verbose : Verbose) (key : List Byte) :
    Prop :=
  ∃ c, collecterGenStaticKey getShapeSize l (Cursor.start verbose.val) = some c ∧ c.written = key

/-- No tensor is one of the exceptions, and the key fits. -/
structure Alike (getShapeSize : Shape → ℤ) (opt : FormatCheckOption) (sys : SysParams)
    (a : KeyArgs op) (k : BinInfoKey) (l : Lookup) : Prop where
  front : FrontAgrees sys a k
  told : List.Forall₂ (Told opt) (slots a.inputs ++ slots a.outputs) l.flagged
  values : ∀ x ∈ l.flagged, Readable getShapeSize x
  fits : lookupLength getShapeSize a l ≤ maxStatickeyLen

theorem forall₂_and_mem {α β : Type} {R : α → β → Prop} {p : β → Prop} {xs : List α} {ys : List β}
    (h : List.Forall₂ R xs ys) (hp : ∀ y ∈ ys, p y) :
    List.Forall₂ (fun x y => R x y ∧ p y) xs ys := by
  induction h with
  | nil => exact .nil
  | @cons x y xs ys hxy _ ih =>
    exact .cons ⟨hxy, hp y mem_cons_self⟩ (ih fun z hz => hp z (mem_cons_of_mem y hz))

section

variable (h : Holds opt sys a l) (hread : ∀ x ∈ l.flagged, Readable getShapeSize x)
include h hread

theorem collecterTail_writes :
    Writes (fun c => do
      let c ← c.put (le8 l.deterMin.toUInt64)
      let c ← c.put (le8 l.implMode.toUInt64)
      let valueDepend ← markValueDepend l.tensors.length l.vDepend
      let c ← (l.tensors.zip valueDepend).foldlM (collectTensor getShapeSize) c
      l.attrs.foldlM collectAttr c) (lookupBytes getShapeSize sys a l) := by
  unfold lookupBytes settingWords
  rw [h.deterministic, h.precision, h.attrs, append_assoc]
  simp only [markValueDepend_eq h.values]
  refine Writes.bind (Writes.put _) (Writes.bind (Writes.put _) (Writes.bind ?_ ?_))
  · exact Writes.foldlM fun x hx => collectTensor_writes (hread x hx)
  · intro c
    show (a.attrs.map fun x => some x.given).foldlM collectAttr c = _
    rw [foldlM_map]
    exact Writes.foldlM (fun x _ => collectAttr_writes x) c

theorem collecterGenStaticKey_eq (verbose : Verbose) :
    ∃ buf : List Byte, buf.length = maxStatickeyLen ∧
      collecterGenStaticKey getShapeSize l (Cursor.start verbose.val) = (Cursor.start buf).put
          (copied maxStatickeyLen op.opType.val ++ lookupBytes getShapeSize sys a l) := by
  obtain ⟨buf, hbuf, hput⟩ := appendBinary_any l.opType
    (show verbose.val.length ≤ securecMemMaxLen by rw [verbose.property]; decide)
  rw [verbose.property] at hbuf hput
  refine ⟨buf, hbuf, ?_⟩
  unfold collecterGenStaticKey
  rw [hput, h.opType, ← Cursor.put_bind]
  exact Option.bind_congr fun c _ => collecterTail_writes h hread c

theorem collecterGenStaticKey_eq_some (verbose : Verbose) (key : List Byte) :
    KeysAgree getShapeSize l verbose key ↔ lookupLength getShapeSize a l ≤ maxStatickeyLen ∧
      copied maxStatickeyLen op.opType.val ++ lookupBytes getShapeSize sys a l = key := by
  obtain ⟨buf, hbuf, heq⟩ := collecterGenStaticKey_eq h hread verbose
  have hfits : ((Cursor.start buf).put (copied maxStatickeyLen op.opType.val ++
      lookupBytes getShapeSize sys a l)).isSome ↔
      lookupLength getShapeSize a l ≤ maxStatickeyLen := by
    rw [Cursor.put_isSome, length_lookup sys a hread]
    show 0 + _ ≤ buf.length ↔ _
    rw [Nat.zero_add, hbuf]
  unfold KeysAgree
  rw [heq, ← hfits]
  constructor
  · rintro ⟨c, hc, rfl⟩
    exact ⟨Option.isSome_iff_exists.mpr ⟨c, hc⟩, (Cursor.take_of_put hc).symm⟩
  · rintro ⟨hsome, rfl⟩
    obtain ⟨c, hc⟩ := Option.isSome_iff_exists.mp hsome
    exact ⟨c, hc, Cursor.take_of_put hc⟩

theorem tensors_eq_iff (hsound : ∀ t, some t ∈ l.tensors → Sound getShapeSize t) :
    ((slots a.inputs ++ slots a.outputs).flatMap slotBytes).length ≤
        (l.flagged.flatMap (collectedBytes getShapeSize)).length ∧
      ((slots a.inputs ++ slots a.outputs).flatMap slotBytes =
          l.flagged.flatMap (collectedBytes getShapeSize) ↔
        List.Forall₂ (Told opt) (slots a.inputs ++ slots a.outputs) l.flagged) := by
  have hmem : ∀ x ∈ l.flagged, ∀ t, x.1 = some t → Sound getShapeSize t :=
    fun x hx t ht => hsound t (ht ▸ of_mem_zip hx |>.1)
  have hpairs := forall₂_and_mem h.tensors fun x hx => And.intro (hread x hx) (hmem x hx)
  obtain ⟨hle, hiff⟩ := flatMap_eq_iff (hpairs.imp fun slot x ⟨hslot, hread, hsound⟩ =>
    (slotBytes_eq_iff hslot hread hsound).1)
  have htold := fun slot x (hx : HoldsTensor opt slot x ∧ Readable getShapeSize x ∧ _) =>
    (slotBytes_eq_iff hx.1 hx.2.1 hx.2.2).2
  exact ⟨hle, hiff.trans ⟨hpairs.mp fun slot x hx => (htold slot x hx).mp,
    hpairs.mp fun slot x hx => (htold slot x hx).mpr⟩⟩

end

/-- If the two keys agree, each tensor is alike on both sides. -/
theorem alike_of_agree {verbose : Verbose} (h : Holds opt sys a l)
    (hsound : ∀ t, some t ∈ l.tensors → Sound getShapeSize t)
    (hkey : genStaticKey hasher sys a k = some (true, k'))
    (hagree : KeysAgree getShapeSize l verbose k'.key.1) : Alike getShapeSize opt sys a k l := by
  have hread : ∀ x ∈ l.flagged, Readable getShapeSize x := by
    by_contra hnot
    obtain ⟨c, hc, -⟩ := hagree
    cases (collecterGenStaticKey_eq_none h hnot _).symm.trans hc
  obtain ⟨hfits, heq⟩ := (collecterGenStaticKey_eq_some h hread verbose _).mp hagree
  obtain ⟨hle, htold⟩ := tensors_eq_iff h hread hsound
  have hlength := length_lookup sys a hread
  have hname := op.opType.property.2
  have hitems : itemsBytes a = (slots a.inputs ++ slots a.outputs).flatMap slotBytes ++
      a.attrs.flatMap attrBytes := by
    unfold itemsBytes
    rw [flatMap_append]
  unfold lookupBytes at heq hlength
  rw [← append_assoc, ← append_assoc] at heq
  simp only [length_append] at hlength
  have hshort : layoutLength a < 2 ^ 32 := by
    unfold layoutLength
    rw [hitems, length_append]
    unfold maxStatickeyLen at hfits
    unfold securecMemMaxLen at hname
    omega
  obtain ⟨hlen, hkey₁, hold⟩ := executor_key hkey hshort
  rw [hkey₁, hitems, ← append_assoc] at heq
  have hhead := append_cancel_right heq
  -- neither the front nor the tensors are longer in the executor's key
  have hsum := congrArg List.length hhead
  simp only [length_append] at hsum
  have hfront : (keyFront sys a k).length ≤
      (copied maxStatickeyLen op.opType.val ++ settingWords sys).length := by
    rw [length_append]
    have hor := length_keyFront hold
    by_cases hop : op.opType.val.length ≤ maxStatickeyLen
    · rw [copied_of_le (by decide) hop, length_settingWords]
      omega
    · rw [copied_of_lt (Nat.lt_of_not_le hop)] at hsum hlength ⊢
      rw [length_nil] at hsum hlength ⊢
      rw [length_settingWords] at hsum ⊢
      omega
  rw [length_append] at hfront
  obtain ⟨hfronts, htensors⟩ := append_inj hhead.symm (by rw [length_append]; omega)
  exact ⟨(keyFront_eq_iff hlen hold).mp hfronts, htold.mp htensors, hread, hfits⟩

theorem agree_of_alike (verbose : Verbose) (h : Holds opt sys a l)
    (hsound : ∀ t, some t ∈ l.tensors → Sound getShapeSize t)
    (hkey : genStaticKey hasher sys a k = some (true, k'))
    (halike : Alike getShapeSize opt sys a k l) : KeysAgree getShapeSize l verbose k'.key.1 := by
  obtain ⟨hfront, htold, hread, hfits⟩ := halike
  have htensors := (tensors_eq_iff h hread hsound).2.mpr htold
  have hlength := length_lookup sys a hread
  have hname := op.opType.property.2
  refine (collecterGenStaticKey_eq_some h hread verbose _).mpr ⟨hfits, ?_⟩
  have hitems : itemsBytes a = l.flagged.flatMap (collectedBytes getShapeSize) ++
      a.attrs.flatMap attrBytes := by
    unfold itemsBytes
    rw [← flatMap_append, htensors]
  have hshort : layoutLength a < 2 ^ 32 := by
    unfold lookupBytes at hlength
    simp only [length_append] at hlength
    unfold layoutLength
    rw [hitems, length_append]
    unfold maxStatickeyLen at hfits
    unfold securecMemMaxLen at hname
    omega
  obtain ⟨hlen, hkey₁, hold⟩ := executor_key hkey hshort
  unfold lookupBytes
  rw [hkey₁, (keyFront_eq_iff hlen hold).mpr hfront, hitems, append_assoc]

/-- When the lookup's key is the executor's. -/
theorem static_keys_agree (getShapeSize : Shape → ℤ) (hasher : UInt64 → UInt64)
    (opt : FormatCheckOption) (sys : SysParams) (a : KeyArgs op) (l : Lookup)
    (h : Holds opt sys a l) (hsound : ∀ t, some t ∈ l.tensors → Sound getShapeSize t)
    (k k' : BinInfoKey) (hkey : genStaticKey hasher sys a k = some (true, k')) (verbose : Verbose) :
    KeysAgree getShapeSize l verbose k'.key.1 ↔ Alike getShapeSize opt sys a k l :=
  ⟨alike_of_agree h hsound hkey, agree_of_alike verbose h hsound hkey⟩

/-- Four `float` on the device, in the format ND. -/
def floatTensor : AclTensor :=
  ⟨.DT_FLOAT, formatND, ⟨[4], Nat.le_add_right 1 24⟩, ⟨[4], Nat.le_add_right 1 24⟩, 4096,
    List.replicate 16 0, true⟩

/-- The product of the dimensions. -/
def shapeProduct (shape : Shape) : ℤ := (shape.val.map Int64.toInt).prod

theorem sound_floatTensor : Sound shapeProduct floatTensor := ⟨by decide, by decide, rfl⟩

/-- A lookup for `Add`, all settings 0. -/
def addLookup (tensors : List (Option AclTensor)) : Lookup :=
  ⟨[65, 100, 100], tensors, [], 0, 0, []⟩

theorem sound_addLookup {tensors : List (Option AclTensor)}
    (h : ∀ x ∈ tensors, x = some floatTensor) :
    ∀ t, some t ∈ (addLookup tensors).tensors → Sound shapeProduct t := by
  intro t ht
  cases h (some t) ht
  exact sound_floatTensor

/-- `Add`, with these inputs. -/
def addOp (inputs : List ParamType) : Op := { attrOp with inputs := inputs }

/-- The slot of a tensor. -/
def floatSlot (isRequired : Bool) : ExtTensor :=
  ⟨floatTensor.saved .default, false, isRequired, false, false⟩

/-- An executor with one required input. -/
def requiredArgs : KeyArgs (addOp [.required]) where
  inputs := ⟨[floatSlot true], [⟨.required, 1, 0⟩], 1, 1, 1, 0, 0, 0⟩
  outputs := noTensors
  attrs := []
  inputs_signature := rfl
  outputs_signature := (attrArgs []).outputs_signature
  inputs_slots := ⟨by decide, by decide⟩
  outputs_slots := (attrArgs []).outputs_slots

/-- An executor whose only input is a list of two tensors. -/
def listArgs : KeyArgs (addOp [.dynamic]) where
  inputs :=
    ⟨[floatSlot true, floatSlot false] ++ List.replicate 19 Tensors.blankSlot, [⟨.dynamic, 2, 0⟩],
      2, 2, 1, 2, 0, 0⟩
  outputs := noTensors
  attrs := []
  inputs_signature := rfl
  outputs_signature := (attrArgs []).outputs_signature
  inputs_slots := ⟨by decide, by decide⟩
  outputs_slots := (attrArgs []).outputs_slots

theorem frontAgrees_fresh (hsize : keySize a < 2 ^ 32)
    (hop : op.opType.val.length ≤ maxStatickeyLen) : FrontAgrees sys a .fresh := by
  have hpos : BinInfoKey.fresh.bufLen < (computeGenKeySize a).toNat := by
    rw [computeGenKeySize_eq hsize]
    unfold keySize
    exact Nat.lt_of_lt_of_le (Nat.zero_lt_succ _) (by omega : 16 ≤ _)
  unfold FrontAgrees
  dsimp only
  rw [if_pos hpos]
  exact iff_of_true (opType_le hsize) hop

theorem static_fresh_key (hasher : UInt64 → UInt64) (sys : SysParams)
    (hmax : keySize a ≤ maxStatickeyLen) (hlayout : layoutLength a ≤ keySize a) :
    ∃ k', genStaticKey hasher sys a .fresh = some (true, k') := by
  have hsize : keySize a < 2 ^ 32 := Nat.lt_of_le_of_lt hmax (by decide)
  have hcompute := computeGenKeySize_eq hsize
  exact genStaticKey_isSome hasher sys sized_fresh (opType_le hsize) (by rwa [hcompute])
    (by rwa [hcompute])

/-- A required input. -/
theorem static_keys_agree_required : ∃ k',
    genStaticKey id ⟨false, 0⟩ requiredArgs .fresh = some (true, k') ∧
      KeysAgree shapeProduct (addLookup [some floatTensor])
        ⟨List.replicate maxStatickeyLen 0, length_replicate⟩ k'.key.1 := by
  obtain ⟨k', hkey⟩ := static_fresh_key (a := requiredArgs) id ⟨false, 0⟩ (by decide) (by decide)
  have hholds : Holds .default ⟨false, 0⟩ requiredArgs (addLookup [some floatTensor]) :=
    ⟨rfl, rfl, rfl, .cons ⟨rfl, rfl, rfl⟩ .nil, rfl, nofun⟩
  refine ⟨k', hkey, (static_keys_agree shapeProduct id .default ⟨false, 0⟩ requiredArgs
    (addLookup [some floatTensor]) hholds (sound_addLookup (by simp)) .fresh k' hkey _).mpr ?_⟩
  refine ⟨frontAgrees_fresh (by decide) (by decide), .cons (fun t ht => ?_) .nil, fun x hx => ?_,
    by decide⟩
  · cases ht
    exact ⟨rfl, rfl⟩
  · cases mem_singleton.mp hx
    exact fun _ _ hflag => (nomatch hflag)

/-- The second tensor of a list: an executor leaves out its type and its format. -/
theorem static_keys_differ : ∃ k',
    Tensors.Reached [.dynamic] listArgs.inputs ∧
      Holds .default ⟨false, 0⟩ listArgs (addLookup [some floatTensor, some floatTensor]) ∧
      (∀ t, some t ∈ (addLookup [some floatTensor, some floatTensor]).tensors →
        Sound shapeProduct t) ∧
      genStaticKey id ⟨false, 0⟩ listArgs .fresh = some (true, k') ∧
      ∀ verbose, ¬ KeysAgree shapeProduct (addLookup [some floatTensor, some floatTensor]) verbose
        k'.key.1 := by
  obtain ⟨k', hkey⟩ := static_fresh_key (a := listArgs) id ⟨false, 0⟩ (by decide) (by decide)
  have hadded : (Tensors.initIoCaches [.dynamic]).clearExtTensors.addArgs .default
      [.tensorList (some [some floatTensor, some floatTensor])] = some listArgs.inputs := rfl
  have hadmits : List.Forall₂ ParamType.Admits [.dynamic]
      [.tensorList (some [some floatTensor, some floatTensor])] :=
    .cons (show 2 ≤ dynamicParamDefNum by decide) .nil
  have hreached : Tensors.Reached [.dynamic] listArgs.inputs := .launch .init hadmits hadded
  have hholds : Holds .default ⟨false, 0⟩ listArgs
      (addLookup [some floatTensor, some floatTensor]) :=
    ⟨rfl, rfl, rfl, .cons ⟨rfl, rfl, rfl⟩ (.cons ⟨rfl, rfl, rfl⟩ .nil), rfl, nofun⟩
  have hsound : ∀ t, some t ∈ (addLookup [some floatTensor, some floatTensor]).tensors →
      Sound shapeProduct t := sound_addLookup (by simp)
  refine ⟨k', hreached, hholds, hsound, hkey, fun verbose hagree => ?_⟩
  have htold := (alike_of_agree hholds hsound hkey hagree).told
  cases htold with
  | cons _ hrest =>
    cases hrest with
    | cons hsecond _ => cases (hsecond floatTensor rfl).1

end OpBase.Indv.BinKey
