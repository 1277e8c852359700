import OpBase.Aicpu.ExtInfoUpdate

/-!
# What the extend info tells

`HasExtInfo` says what the memory has of the extend info as far as the device looks: the heads
of the entries, the bitmap, the types and the dimensions up to the end mark, the kernel id.

> `HasExtInfo.decode`: it determines what the device reads.
>
> `genExtBuffer_has`: a string that was built has it of the tensors it was built of.
-/

namespace OpBase.Aicpu

open List OpBase.Lib
open Option (bind_eq_some_iff)

variable {A : Adapter} {m m' : Mem} {base nameLen : Nat} {type : ExtInfoType}

/-! ## What the memory has -/

section Layout

variable (A)

/-- Where the entries are, behind a name of `nameLen` bytes. -/
def bitMapAt (base nameLen : Nat) : Nat :=
  base + A.extInfo.size + nameLen + A.extInfo.size + 4

def inputAt (base nameLen : Nat) : Nat := bitMapAt A base nameLen + A.extInfo.size + 8

def outputAt (base nameLen inputNum : Nat) : Nat :=
  inputAt A base nameLen + A.extInfo.size + A.shapeAndType.size * inputNum

def sessionAt (base nameLen inputNum outputNum : Nat) : Nat :=
  outputAt A base nameLen inputNum + A.extInfo.size + A.shapeAndType.size * outputNum

/-- The types and lengths of the entries; only those of the device's own kernels have a
session. -/
def extEntries (nameLen inputNum outputNum : Nat) (session : Bool) : List (Nat × Nat) :=
  [(A.code .opName, nameLen), (A.code .shapeType, 4), (A.code .bitmap, 8),
    (A.code .inputShape, A.shapeAndType.size * inputNum),
    (A.code .outputShape, A.shapeAndType.size * outputNum)] ++
  if session then [(A.code .sessionInfo, A.sessionInfo.size)] else []

end Layout

/-- What the extend info tells. -/
structure Told where
  inputs : List AclTensor
  outputs : List AclTensor
  kernelId : Option UInt64

/-- The entries at `p` have the tensors; behind the end mark may stand anything. -/
def HasShapes (A : Adapter) (m : Mem) (p : Nat) (ts : List AclTensor) : Prop :=
  ∀ i t, ts[i]? = some t →
    A.shapeAndType.get m (p + A.shapeAndType.size * i) .type = t.dataType.toNat ∧
    ∀ k, k < kMaxShapeDims → k ≤ t.originalShape.length →
      A.dimAt m (p + A.shapeAndType.size * i) k = t.originalShape.getD k kDimEndFlag

structure HasExtInfo (A : Adapter) (nameLen : Nat) (m : Mem) (base : Nat) (t : Told) : Prop where
  entries : Entries A.extInfo m base
    (extEntries A nameLen t.inputs.length t.outputs.length t.kernelId.isSome)
  bitMap : m.load (bitMapAt A base nameLen + A.extInfo.size) 8 = 0
  inputs : HasShapes A m (inputAt A base nameLen + A.extInfo.size) t.inputs
  outputs : HasShapes A m (outputAt A base nameLen t.inputs.length + A.extInfo.size) t.outputs
  session : ∀ kernelId, t.kernelId = some kernelId →
    A.sessionInfo.get m (sessionAt A base nameLen t.inputs.length t.outputs.length
      + A.extInfo.size) .kernelId = kernelId.toNat

/-! ## What the device reads -/

/-- A tensor as the device reads it behind its pointer. -/
def readTensor (A : Adapter) (m : Mem) (p : Nat) : AclTensor where
  dataType := UInt32.ofNat (A.shapeAndType.get m p .type)
  originalShape := getDimsFromShapeAndType A m p

/-- What the device makes of the `total` bytes at `base`. -/
def decodeExt (A : Adapter) (m : Mem) (base total : Nat) : Option (Except KernelStatus Told) :=
  (walk A.extInfo (parseExtEntry A m) (2 ^ 32) m base total (total + 1) 0 {}).map fun r =>
    r.map fun msg =>
      { inputs := msg.inputShapeAndType.map (readTensor A m)
        outputs := msg.outputShapeAndType.map (readTensor A m)
        kernelId := if msg.hasSessInfo then some msg.kernelId else none }

/-- A tensor as it is read: its shape goes up to the end mark. -/
def AclTensor.seen (t : AclTensor) : AclTensor where
  dataType := t.dataType
  originalShape := takeMarked kDimEndFlag (t.originalShape.getD · kDimEndFlag) kMaxShapeDims

def Told.seen (t : Told) : Told :=
  { t with inputs := t.inputs.map AclTensor.seen, outputs := t.outputs.map AclTensor.seen }

theorem HasShapes.readTensor {p : Nat} {ts : List AclTensor} (h : HasShapes A m p ts) :
    (shapePtrs A p ts.length).map (readTensor A m) = ts.map AclTensor.seen := by
  unfold shapePtrs
  rw [map_map]
  apply ext_getElem (by simp)
  intro i hi hi'
  rw [length_map] at hi'
  rw [getElem_map, getElem_map, getElem_range]
  obtain ⟨htype, hdims⟩ := h i ts[i] (getElem?_eq_getElem hi')
  have hshape : getDimsFromShapeAndType A m (p + A.shapeAndType.size * i)
      = ts[i].seen.originalShape := takeMarked_upto kDimEndFlag hdims
  rw [Function.comp_apply, Aicpu.readTensor, htype, hshape, UInt32.ofNat_toNat]
  rfl

/-- The shapes stay where nothing writes into them. -/
theorem HasShapes.frame {p : Nat} {ts : List AclTensor} (h : HasShapes A m p ts)
    (hkeep : ∀ x, p ≤ x → x < p + A.shapeAndType.size * ts.length → m' x = m x) :
    HasShapes A m' p ts := by
  intro i t hi
  obtain ⟨htype, hdims⟩ := h i t hi
  have hroom : A.shapeAndType.size * i + A.shapeAndType.size
      ≤ A.shapeAndType.size * ts.length := by
    rw [← Nat.mul_succ]
    exact Nat.mul_le_mul_left _ (List.getElem?_eq_some_iff.mp hi).1
  have hinside : A.shapeAndType.off .type + 4 ≤ A.shapeAndType.size := A.shapeAndType.inside .type
  refine ⟨?_, fun k hk hle => ?_⟩
  · rw [← htype]
    exact A.shapeAndType.get_frame fun x hx hx' => hkeep x (by omega) (by
      change x < _ + 4 at hx'
      omega)
  · rw [← hdims k hk hle]
    have hin := A.dims_inside (p + A.shapeAndType.size * i)
    have hle := A.le_dims (p + A.shapeAndType.size * i)
    exact Adapter.dimAt_frame hk fun x hx hx' => hkeep x (by omega) (by omega)

/-- The message of the device, with the pointers to the shapes. -/
def toldMsg (A : Adapter) (base nameLen : Nat) (t : Told) : ExtInfoMsg where
  hasSessInfo := t.kernelId.isSome
  kernelId := t.kernelId.getD 0
  unknownShape := true
  inputShapeAndType := shapePtrs A (inputAt A base nameLen + A.extInfo.size) t.inputs.length
  outputShapeAndType :=
    shapePtrs A (outputAt A base nameLen t.inputs.length + A.extInfo.size) t.outputs.length

/-- The visit of the entries reads off what the extend info was told. -/
theorem HasExtInfo.visit {t : Told} (h : HasExtInfo A nameLen m base t) (hbase : base ≠ 0) :
    visit A.extInfo (parseExtEntry A m) base
      (extEntries A nameLen t.inputs.length t.outputs.length t.kernelId.isSome) {}
      = .ok (toldMsg A base nameLen t) := by
  obtain ⟨inputs, outputs, kernelId⟩ := t
  -- where one entry ends the next begins
  have e₃ : base + A.extInfo.size + nameLen + A.extInfo.size + 4 = bitMapAt A base nameLen := rfl
  have e₄ : bitMapAt A base nameLen + A.extInfo.size + 8 = inputAt A base nameLen := rfl
  have e₅ : inputAt A base nameLen + A.extInfo.size + A.shapeAndType.size * inputs.length
      = outputAt A base nameLen inputs.length := rfl
  have e₆ : outputAt A base nameLen inputs.length + A.extInfo.size
      + A.shapeAndType.size * outputs.length
      = sessionAt A base nameLen inputs.length outputs.length := rfl
  unfold extEntries
  dsimp only
  rw [cons_append, cons_append, cons_append, cons_append, cons_append,
    nil_append, visit_ok (parseExtEntry_opName hbase),
    visit_ok (parseExtEntry_shapeType (by omega) rfl), e₃,
    visit_ok (parseExtEntry_bitmap (by omega) rfl h.bitMap), e₄,
    visit_ok (parseExtEntry_inputShape (by omega) rfl rfl rfl), e₅,
    visit_ok (parseExtEntry_outputShape (by omega) rfl rfl rfl), e₆]
  cases kernelId with
  | none => rfl
  | some kernelId =>
    have hsession := h.session kernelId rfl
    dsimp only at hsession
    rw [Option.isSome_some, if_pos rfl,
      visit_ok (parseExtEntry_sessionInfo (by omega) rfl hsession)]
    rfl

/-- The device decodes what the extend info was told. -/
theorem HasExtInfo.decode {t : Told} {total : Nat} (h : HasExtInfo A nameLen m base t)
    (hbase : base ≠ 0) (htotal : total < 2 ^ 32)
    (hsize : entriesSize A.extInfo
      (extEntries A nameLen t.inputs.length t.outputs.length t.kernelId.isSome) = total) :
    decodeExt A m base total = some (.ok t.seen) := by
  unfold decodeExt
  rw [walk_visits h.entries hsize htotal, h.visit hbase]
  simp only [Option.map_some, Except.map, toldMsg, h.inputs.readTensor, h.outputs.readTensor,
    Told.seen]
  cases t.kernelId <;> rfl

/-! ## What is built -/

theorem getD_mark {α : Type} {l : List α} {k : Nat} (mark d : α) (h : k ≤ l.length) :
    (l ++ [mark]).getD k d = l.getD k mark := by
  by_cases hk : k < l.length
  · rw [getD_append _ _ _ _ hk, getD_eq_getElem _ _ hk, getD_eq_getElem _ _ hk]
  · obtain rfl : k = l.length := by omega
    rw [getD_append_right _ _ _ _ le_rfl, Nat.sub_self, getD_cons_zero, getD_eq_default _ _ le_rfl]

theorem IsShapeEntry.hasShapes {s : Str} {ts : List AclTensor} {a : Nat}
    (hs : IsShapeEntry A s type ts) (hm : m.Holds a s) :
    HasShapes A m (a + A.extInfo.size) ts := by
  intro i t hi
  have hroom : A.shapeAndType.size * i + A.shapeAndType.size
      ≤ A.shapeAndType.size * ts.length := by
    rw [← Nat.mul_succ]
    exact Nat.mul_le_mul_left _ (List.getElem?_eq_some_iff.mp hi).1
  have hsize := hs.entry.size
  have haddr : a + A.extInfo.size + A.shapeAndType.size * i
      = a + (A.extInfo.size + A.shapeAndType.size * i) := by omega
  rw [haddr]
  refine ⟨?_, fun k hk hle => ?_⟩
  · rw [← hs.typeOf i t hi]
    exact A.shapeAndType.get_holds hm (by omega) _
  · have hin := A.dims_inside (A.extInfo.size + A.shapeAndType.size * i)
    rw [← getD_mark kDimEndFlag blankDim hle, ← hs.dims i t hi k hk]
    unfold Adapter.dimAt
    rw [← hm.word (by omega)]
    unfold Adapter.dims
    rw [Nat.add_assoc a]

/-- The entries that both kinds of kernels have. -/
def genShapes (A : Adapter) (h : AicpuExtInfoHandler) (inputs outputs : List AclTensor)
    (taskExtInfo : Str) : Option Str := do
  let s ← appendExtOpName A h.nodeName taskExtInfo
  let s := appendExtShapeType A h.unknownType s
  let s := appendExtBitMap A s
  let s ← appendExtInfoShape A inputs .inputShape s
  appendExtInfoShape A outputs .outputShape s

theorem genCCExtBuffer_eq (h : AicpuExtInfoHandler) (gKernelId : UInt64)
    (inputs outputs : List AclTensor) (t : Str) : genCCExtBuffer A h gKernelId inputs outputs t
      = (genShapes A h inputs outputs t).map fun s =>
          (appendSessionInfo A gKernelId s, gKernelId + 1) := by
  unfold genCCExtBuffer genShapes
  simp only [Option.bind_eq_bind, Option.map_eq_bind, Option.bind_assoc]
  rfl

variable {h : AicpuExtInfoHandler} {inputs outputs : List AclTensor} {s : Str}

section

variable (hgen : genShapes A h inputs outputs Str.empty = some s)
include hgen

theorem genShapes_spec :
    ∃ opName shapeType bitMap inputShape outputShape : Str,
      s = ((((Str.empty.append opName).append shapeType).append bitMap).append inputShape).append
        outputShape ∧
      IsEntry A opName .opName h.nodeName.length ∧ IsEntry A shapeType .shapeType 4 ∧
      IsEntry A bitMap .bitmap 8 ∧ bitMap.byte.load A.extInfo.size 8 = 0 ∧
      IsShapeEntry A inputShape .inputShape inputs ∧
      IsShapeEntry A outputShape .outputShape outputs := by
  obtain ⟨s₁, hs₁, hgen⟩ := bind_eq_some_iff.mp hgen
  obtain ⟨s₂, hs₂, hs₃⟩ := bind_eq_some_iff.mp hgen
  obtain ⟨opName, rfl, hopName⟩ := appendExtOpName_spec hs₁
  obtain ⟨inputShape, rfl, hinput⟩ := appendExtInfoShape_spec hs₂
  obtain ⟨outputShape, rfl, houtput⟩ := appendExtInfoShape_spec hs₃
  refine ⟨opName, _, _, inputShape, outputShape, rfl, hopName, ?_, ?_, ?_, hinput, houtput⟩
  · exact (isEntry_blankEntry .shapeType 4).body fun x hx => Mem.store_of_apart _ _ (by omega)
  · exact (isEntry_blankEntry .bitmap 8).body fun x hx => Mem.store_of_apart _ _ (by omega)
  · exact Mem.load_store _ _ _ _

theorem genShapes_size :
    s.size = entriesSize A.extInfo
      (extEntries A h.nodeName.length inputs.length outputs.length false) := by
  obtain ⟨opName, shapeType, bitMap, inputShape, outputShape, rfl, h₁, h₂, h₃, -, h₄, h₅⟩ :=
    genShapes_spec hgen
  simp only [Str.size_append, Str.empty, extEntries, cons_append, nil_append,
    entriesSize, h₁.size, h₂.size, h₃.size, h₄.entry.size, h₅.entry.size, Bool.false_eq_true,
    if_false]
  omega

theorem genShapes_has (hm : m.Holds base s) (hsize : s.size < 2 ^ 32) :
    HasExtInfo A h.nodeName.length m base ⟨inputs, outputs, none⟩ := by
  obtain ⟨opName, shapeType, bitMap, inputShape, outputShape, rfl, h₁, h₂, h₃, hzero, h₄, h₅⟩ :=
    genShapes_spec hgen
  have m₁ := hm.left.left.left.left.right
  have m₂ := hm.left.left.left.right
  have m₃ := hm.left.left.right
  have m₄ := hm.left.right
  have m₅ := hm.right
  simp only [Str.size_append, Str.empty, Nat.zero_add, Nat.add_zero, h₁.size, h₂.size, h₃.size,
    h₄.entry.size, h₅.entry.size, ← Nat.add_assoc] at m₁ m₂ m₃ m₄ m₅ hsize
  refine ⟨?_, ?_, h₄.hasShapes m₄, h₅.hasShapes m₅, fun kernelId hid => by cases hid⟩
  · exact ⟨⟨h₁.get_type m₁, h₁.get_len m₁ (by omega)⟩, ⟨h₂.get_type m₂, h₂.get_len m₂ (by omega)⟩,
      ⟨h₃.get_type m₃, h₃.get_len m₃ (by omega)⟩,
      ⟨h₄.entry.get_type m₄, h₄.entry.get_len m₄ (by omega)⟩,
      ⟨h₅.entry.get_type m₅, h₅.entry.get_len m₅ (by omega)⟩, trivial⟩
  · exact (m₃.load (by rw [h₃.size])).trans hzero

end

theorem sessionAt_eq (base nameLen inputNum outputNum : Nat) :
    sessionAt A base nameLen inputNum outputNum
      = base + entriesSize A.extInfo (extEntries A nameLen inputNum outputNum false) := by
  simp only [sessionAt, outputAt, inputAt, bitMapAt, extEntries, cons_append,
    nil_append, entriesSize, Bool.false_eq_true, if_false]
  omega

theorem HasExtInfo.withSession {kernelId : UInt64} {e : Str}
    (ht : HasExtInfo A nameLen m base ⟨inputs, outputs, none⟩)
    (he : IsEntry A e .sessionInfo A.sessionInfo.size)
    (hid : A.sessionInfo.get e.byte A.extInfo.size .kernelId = kernelId.toNat)
    (hm : m.Holds (sessionAt A base nameLen inputs.length outputs.length) e)
    (hsize : A.sessionInfo.size < 2 ^ 32) :
    HasExtInfo A nameLen m base ⟨inputs, outputs, some kernelId⟩ := by
  refine ⟨?_, ht.bitMap, ht.inputs, ht.outputs, ?_⟩
  · refine entries_append.mpr ⟨(entries_append.mp ht.entries).1, ?_⟩
    have haddr := sessionAt_eq (A := A) base nameLen inputs.length outputs.length
    rw [Option.isSome_some, if_pos rfl]
    exact haddr ▸ ⟨⟨he.get_type hm, he.get_len hm hsize⟩, trivial⟩
  · intro kernelId' hsome
    rw [← Option.some.inj hsome, ← hid]
    exact A.sessionInfo.get_holds hm (by rw [he.size]) _

theorem encodeEntries_rank : ∀ {ts : List AclTensor} {m m' : Mem} {p : Nat},
    encodeEntries A m p ts = some m' → ∀ t ∈ ts, t.originalShape.length ≤ 8
  | [], _, _, _, _, t, ht => nomatch ht
  | t :: ts, m, m', p, h, t', ht' => by
    obtain ⟨m₁, hm₁, hrest⟩ := bind_eq_some_iff.mp h
    rcases mem_cons.mp ht' with rfl | ht'
    · unfold Adapter.updateShape at hm₁
      split at hm₁
      · nomatch hm₁
      next hle => exact Nat.le_of_not_lt hle
    · exact encodeEntries_rank hrest t' ht'

theorem appendExtInfoShape_isSome_iff {ts : List AclTensor} {t : Str} :
    (∃ s, appendExtInfoShape A ts type t = some s) ↔ ∀ t ∈ ts, t.originalShape.length ≤ 8 := by
  constructor
  · rintro ⟨s, hs⟩
    obtain ⟨byte, hbyte, -⟩ := bind_eq_some_iff.mp hs
    exact encodeEntries_rank hbyte
  · intro hrank
    obtain ⟨byte, hbyte⟩ := encodeEntries_isSome (A := A)
      (m := (blankEntry A type (A.shapeAndType.size * ts.length)).byte) (p := A.extInfo.size) hrank
    exact ⟨_, bind_eq_some_iff.mpr ⟨byte, hbyte, rfl⟩⟩

theorem genShapes_isSome_iff {t : Str} : (∃ s, genShapes A h inputs outputs t = some s) ↔
    h.nodeName.length + 1 ≤ securecStringMaxLen ∧
      (∀ t ∈ inputs, t.originalShape.length ≤ 8) ∧ ∀ t ∈ outputs, t.originalShape.length ≤ 8 := by
  constructor
  · rintro ⟨s, hs⟩
    obtain ⟨s₁, hs₁, hs⟩ := bind_eq_some_iff.mp hs
    obtain ⟨s₂, hs₂, hs₃⟩ := bind_eq_some_iff.mp hs
    refine ⟨?_, appendExtInfoShape_isSome_iff.mp ⟨s₂, hs₂⟩,
      appendExtInfoShape_isSome_iff.mp ⟨s, hs₃⟩⟩
    unfold appendExtOpName at hs₁
    split at hs₁
    · nomatch hs₁
    next hle => exact Nat.le_of_not_lt hle
  · intro ⟨hname, hin, hout⟩
    unfold genShapes appendExtOpName
    rw [if_neg (Nat.not_lt_of_le hname)]
    obtain ⟨s₂, hs₂⟩ := appendExtInfoShape_isSome_iff.mpr hin
    obtain ⟨s₃, hs₃⟩ := appendExtInfoShape_isSome_iff.mpr hout
    exact ⟨s₃, bind_eq_some_iff.mpr ⟨_, rfl, bind_eq_some_iff.mpr ⟨s₂, hs₂, hs₃⟩⟩⟩

section

variable (space : AicpuTaskSpace) (isInput : Bool) (ts : List AclTensor)
include space isInput ts

theorem length_tfTensors :
    (tfTensors space isInput ts).length = ts.length := length_mapIdx

theorem shapes_tfTensors :
    (tfTensors space isInput ts).map AclTensor.originalShape
      = ts.map AclTensor.originalShape := by
  apply ext_getElem
  · rw [length_map, length_map, length_tfTensors]
  · intro i hi hi'
    rw [getElem_map, getElem_map]
    unfold tfTensors
    rw [getElem_mapIdx]

theorem tfTensors_rank :
    (∀ t ∈ tfTensors space isInput ts, t.originalShape.length ≤ 8) ↔
      ∀ t ∈ ts, t.originalShape.length ≤ 8 := by
  have hmap : ∀ l : List AclTensor, (∀ shape ∈ l.map AclTensor.originalShape, shape.length ≤ 8) ↔
      ∀ t ∈ l, t.originalShape.length ≤ 8 := fun l => forall_mem_map
  rw [← hmap, ← hmap, shapes_tfTensors]

end

/-! ## Both kinds -/

/-- The kernels that the extend info is built for: the device's own, or TensorFlow's. -/
inductive ExtKind
  | cc
  | tf (space : AicpuTaskSpace)

/-- The generation of that kind, on an empty string. -/
def genExtBuffer (A : Adapter) (kind : ExtKind) (h : AicpuExtInfoHandler) (kernelId : UInt64)
    (inputs outputs : List AclTensor) : Option Str :=
  match kind with
  | .cc => (genCCExtBuffer A h kernelId inputs outputs Str.empty).map Prod.fst
  | .tf space => genTfExtBuffer A space h inputs outputs Str.empty

def ExtKind.hasSession : ExtKind → Bool
  | .cc => true
  | .tf _ => false

/-- What it tells. -/
def ExtKind.told (kind : ExtKind) (kernelId : UInt64) (inputs outputs : List AclTensor) : Told :=
  match kind with
  | .cc => ⟨inputs, outputs, some kernelId⟩
  | .tf space => ⟨tfTensors space true inputs, tfTensors space false outputs, none⟩

variable {kind : ExtKind} {kernelId : UInt64}

/-- The extend info can be made just when the name fits and no shape has more than eight
dimensions. -/
theorem genExtBuffer_isSome_iff : (∃ s, genExtBuffer A kind h kernelId inputs outputs = some s) ↔
    h.nodeName.length + 1 ≤ securecStringMaxLen ∧
      (∀ t ∈ inputs, t.originalShape.length ≤ 8) ∧ ∀ t ∈ outputs, t.originalShape.length ≤ 8 := by
  cases kind with
  | cc =>
    rw [← genShapes_isSome_iff (A := A) (t := Str.empty)]
    simp only [genExtBuffer, genCCExtBuffer_eq, Option.map_map, Option.map_eq_some_iff]
    exact ⟨fun ⟨_, s, hs, _⟩ => ⟨s, hs⟩, fun ⟨s, hs⟩ => ⟨_, s, hs, rfl⟩⟩
  | tf space =>
    rw [← tfTensors_rank space true inputs, ← tfTensors_rank space false outputs]
    exact genShapes_isSome_iff

theorem genExtBuffer_cc (hgen : genExtBuffer A .cc h kernelId inputs outputs = some s) :
    ∃ s₅ e, s = s₅.append e ∧ genShapes A h inputs outputs Str.empty = some s₅ ∧
      IsEntry A e .sessionInfo A.sessionInfo.size ∧
      A.sessionInfo.get e.byte A.extInfo.size .kernelId = kernelId.toNat := by
  obtain ⟨e, happend, hentry, hid⟩ := isEntry_session (A := A) kernelId
  simp only [genExtBuffer, genCCExtBuffer_eq, Option.map_map, Option.map_eq_some_iff] at hgen
  obtain ⟨s₅, hs₅, rfl⟩ := hgen
  exact ⟨s₅, e, happend s₅, hs₅, hentry, hid⟩

/-- Its size is that of the entries. -/
theorem genExtBuffer_size (hgen : genExtBuffer A kind h kernelId inputs outputs = some s) :
    s.size = entriesSize A.extInfo
      (extEntries A h.nodeName.length inputs.length outputs.length kind.hasSession) := by
  cases kind with
  | cc =>
    obtain ⟨s₅, e, rfl, hs₅, hentry, -⟩ := genExtBuffer_cc hgen
    rw [Str.size_append, genShapes_size hs₅, hentry.size]
    simp only [extEntries, ExtKind.hasSession, entriesSize_append, entriesSize, if_true,
      Bool.false_eq_true, if_false, Nat.add_zero]
  | tf space =>
    have hsize := genShapes_size hgen
    rwa [length_tfTensors, length_tfTensors] at hsize

/-- Freshly made it says what it was made of. -/
theorem genExtBuffer_has (hgen : genExtBuffer A kind h kernelId inputs outputs = some s)
    (hm : m.Holds base s) (hsize : s.size < 2 ^ 32) :
    HasExtInfo A h.nodeName.length m base (kind.told kernelId inputs outputs) := by
  cases kind with
  | cc =>
    obtain ⟨s₅, e, rfl, hs₅, hentry, hid⟩ := genExtBuffer_cc hgen
    rw [Str.size_append, hentry.size] at hsize
    have hshapes := genShapes_has hs₅ hm.left (by omega)
    have hsession := hm.right
    rw [genShapes_size hs₅, ← sessionAt_eq] at hsession
    exact hshapes.withSession hentry hid hsession (by omega)
  | tf space => exact genShapes_has hgen hm hsize

section

variable (kind : ExtKind) (kernelId : UInt64) (inputs outputs : List AclTensor)

@[simp] theorem length_told_inputs :
    (kind.told kernelId inputs outputs).inputs.length = inputs.length := by
  cases kind with
  | cc => rfl
  | tf space => exact length_tfTensors space true inputs

@[simp] theorem length_told_outputs :
    (kind.told kernelId inputs outputs).outputs.length = outputs.length := by
  cases kind with
  | cc => rfl
  | tf space => exact length_tfTensors space false outputs

@[simp] theorem isSome_told_kernelId :
    (kind.told kernelId inputs outputs).kernelId.isSome = kind.hasSession := by
  cases kind <;> rfl

end

end OpBase.Aicpu
