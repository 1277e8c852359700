import OpBase.Indv.ArgsKey
import OpBase.Lib.Framing

/-!
# What the key functions write

The room that is made before each write is enough, so every function of the key
appends a fixed string and nothing else: `Puts f bytes`. A call's key is then the
concatenation of what its parameters, attributes and closing values write, in
order.

> `Call.key_eq_some`: the key of a call through the `NnopbaseAdd…` functions.
>
> `SlotCall.key_eq`: the key that `GenArgsKey` writes; `CalcKeyLen` is its length.
-/

namespace OpBase.Indv

open List OpBase.Lib

/-! ## The bytes of each parameter -/

def tensorBytes : Option Tensor → List Byte
  | none => [placeHolder]
  | some t => shapeInfo t

variable {α : Type}

def arrayBytes (bytes : α → List Byte) (dType : DataType) : Option (Sized α) → List Byte
  | none => [placeHolder]
  | some array =>
    baseBytes dType formatND 1 ++ le8 (UInt64.ofNat array.val.length) ++ array.val.flatMap bytes

def runBytes (t : Tensor) (cnt : Nat) : List Byte := shapeInfo t ++ [UInt8.ofNat cnt]

def prevBytes (prev : Option Tensor) (cnt : Nat) : List Byte := prev.elim [] (runBytes · cnt)

/-- The list behind `prev`, and the run of `cnt` tensors that `prev` stands for. -/
def loopBytes (prev : Option Tensor) (cnt : Nat) : List (Option Tensor) → List Byte
  | [] => prevBytes prev cnt
  | x :: xs =>
    if x ≠ none ∧ x = prev then loopBytes prev (cnt + 1) xs
    else prevBytes prev cnt ++
      match x with
      | none => placeHolder :: loopBytes none cnt xs
      | some t => loopBytes (some t) 1 xs

def tensorListBytes : Option (List (Option Tensor)) → List Byte
  | none | some [] => [placeHolder]
  | some (x :: xs) => loopBytes x 1 xs

def scalarBytes (slotType : Nat → DataType) (scalar : Option ElementType) (index : Nat)
    (srcIndex : Option Nat) (dtype : Option ElementType) : List Byte :=
  match scalar with
  | none => [placeHolder]
  | some own => baseBytes (KeyBuf.scalarType slotType index own srcIndex dtype) formatND 0

def scalarListBytes (slotType : Nat → DataType) (scalars : Option (List (Option ElementType)))
    (index : Nat) (srcIndex : Option Nat) (dtype : Option ElementType) : List Byte :=
  match scalars with
  | some (some own :: rest) =>
    baseBytes (KeyBuf.scalarType slotType index own srcIndex dtype) formatND 1 ++
      le8 (UInt64.ofNat (rest.length + 1))
  | _ => [placeHolder]

def inputBytes (slotType : Nat → DataType) (input : Input) (index : Nat) : List Byte :=
  match input with
  | .tensor t => tensorBytes t
  | .intArray a => arrayBytes (fun x => le8 x.toUInt64) .DT_INT64 a
  | .boolArray a => arrayBytes KeyBuf.boolByte .DT_BOOL a
  | .floatArray a => arrayBytes (fun x => le 4 x.toNat) .DT_FLOAT a
  | .tensorList ts => tensorListBytes ts
  | .scalar s srcIndex dtype => scalarBytes slotType s index srcIndex dtype
  | .scalarList ss srcIndex dtype => scalarListBytes slotType ss index srcIndex dtype

/-- The mark in front of the first parameter of a group. -/
def groupMark (index : Nat) : List Byte := if index = 0 then [placeHolder] else []

def outputBytes (output : Output) (index : Nat) : List Byte :=
  groupMark index ++
    match output with
    | .tensor t => tensorBytes t
    | .tensorList ts => tensorListBytes ts

def attrBytes (attr : Attr) (index : Nat) : List Byte := groupMark index ++ attr.bytes

namespace Call

def inputsBytes (c : Call) : List Byte :=
  c.inputs.zipIdx.flatMap fun p => inputBytes c.slotType p.1 p.2

def outputsBytes (c : Call) : List Byte := c.outputs.zipIdx.flatMap fun p => outputBytes p.1 p.2

def attrsBytes (c : Call) : List Byte := c.attrs.zipIdx.flatMap fun p => attrBytes p.1 p.2

/-- The core numbers and the rank, each behind a mark. -/
def closing (c : Call) : List Byte :=
  (placeHolder :: (le 4 c.aicNum.toNat ++ le 4 c.aivNum.toNat)) ++
    placeHolder :: le 4 c.mc2RankId.toNat

end Call

/-! ## Room -/

/-- The function appends `bytes`. -/
def Puts (f : KeyBuf → Option KeyBuf) (bytes : List Byte) : Prop :=
  ∀ b, ∃ b', f b = some b' ∧ b'.key = b.key ++ bytes

/-- Two pieces of the key, one behind the other. -/
theorem Puts.bind {f g : KeyBuf → Option KeyBuf} {p q : List Byte} (hf : Puts f p)
    (hg : Puts g q) : Puts (fun b => (f b).bind g) (p ++ q) := by
  intro b
  obtain ⟨b₁, h₁, hkey₁⟩ := hf b
  obtain ⟨b₂, h₂, hkey₂⟩ := hg b₁
  refine ⟨b₂, ?_, by rw [hkey₂, hkey₁, append_assoc]⟩
  show (f b).bind g = some b₂
  rw [h₁]
  exact h₂

theorem Puts.nothing : Puts some [] := fun b => ⟨b, rfl, (append_nil _).symm⟩

theorem Puts.foldlM {f : KeyBuf → α → Option KeyBuf} {bytes : α → List Byte} :
    ∀ {xs : List α}, (∀ x ∈ xs, Puts (f · x) (bytes x)) →
      Puts (fun b => xs.foldlM f b) (xs.flatMap bytes)
  | [], _ => Puts.nothing
  | x :: xs, h => by
    have htail := Puts.foldlM fun y hy => h y (mem_cons_of_mem x hy)
    exact (h x mem_cons_self).bind htail

theorem put_of_le (b : KeyBuf) (bytes : List Byte) (h : bytes.length ≤ b.remainKeyLen) :
    ∃ b', b.put bytes = some b' ∧ b'.key = b.key ++ bytes ∧
      b'.remainKeyLen = b.remainKeyLen - bytes.length := by
  unfold KeyBuf.put
  rw [dif_pos h]
  exact ⟨_, rfl, rfl, rfl⟩

theorem reserve_key (b : KeyBuf) (len chunks : Nat) : (b.reserve len chunks).key = b.key := by
  unfold KeyBuf.reserve
  split
  next => rfl
  next => rfl

theorem le_remain_reserve (b : KeyBuf) {len chunks : Nat} (h : len ≤ chunks * maxArgsKeyLen) :
    len ≤ (b.reserve len chunks).remainKeyLen := by
  unfold KeyBuf.reserve
  split
  next =>
    show len ≤ b.remainKeyLen + chunks * maxArgsKeyLen
    omega
  next hroom => omega

variable {bytes : List Byte}

/-- A piece for which enough was reserved is put. -/
theorem puts_reserve {len chunks : Nat} (hlen : bytes.length = len)
    (h : len ≤ chunks * maxArgsKeyLen) :
    Puts (fun b => (b.reserve len chunks).put bytes) bytes := by
  intro b
  subst hlen
  obtain ⟨b', hput, hkey, -⟩ := put_of_le _ bytes (le_remain_reserve b h)
  exact ⟨b', hput, by rw [hkey, reserve_key]⟩

theorem le_chunks (len : Nat) : len ≤ (len / maxArgsKeyLen + 1) * maxArgsKeyLen := by
  have := Nat.lt_div_mul_add (a := len) (b := maxArgsKeyLen) (by decide)
  rw [Nat.succ_mul]
  omega

theorem length_baseBytes (d : DataType) (f : UInt32) (n : Nat) : (baseBytes d f n).length = 6 := by
  unfold baseBytes
  rw [length_append, length_le]
  rfl

theorem length_dimBytes (dims : List Int64) : (dimBytes dims).length = dims.length * 8 :=
  length_flatMap_of (fun _ => length_le8 _) dims

/-- Behind equal numbers of dimensions the bytes tell the shape. -/
theorem dimBytes_inj {s t : Shape} {u v : List Byte} (hlen : le 4 s.val.length = le 4 t.val.length)
    (h : dimBytes s.val ++ u = dimBytes t.val ++ v) : s = t ∧ u = v := by
  have hlen : s.val.length = t.val.length := by
    have := s.property
    have := t.property
    exact le_inj (by omega) (by omega) hlen
  obtain ⟨hshape, huv⟩ := append_inj h (by rw [length_dimBytes, length_dimBytes, hlen])
  have hdim : ∀ {a b : Int64}, le8 a.toUInt64 = le8 b.toUInt64 → a = b :=
    fun hab => congrArg Int64.ofUInt64 (le8_inj.mp hab)
  exact ⟨Subtype.ext (flatMap_inj (fun _ => length_le8 _) hdim hlen hshape), huv⟩

theorem length_shapeInfo (t : Tensor) : (shapeInfo t).length = 6 + t.viewShape.val.length * 8 := by
  unfold shapeInfo
  rw [length_append, length_baseBytes, length_dimBytes]

/-! ## What each function appends -/

theorem genPlaceHolderKey_puts : Puts KeyBuf.genPlaceHolderKey [placeHolder] :=
  puts_reserve rfl (by decide)

theorem addShapeInfo_puts (t : Tensor) : Puts (·.addShapeInfo t) (shapeInfo t) := by
  refine puts_reserve (length_shapeInfo t) ?_
  have := t.viewShape.property
  unfold maxArgsKeyLen
  omega

theorem genTensorKey_puts (t : Option Tensor) : Puts (·.genTensorKey t) (tensorBytes t) := by
  cases t with
  | none => exact genPlaceHolderKey_puts
  | some t => exact addShapeInfo_puts t

theorem genValueDependTensorKey_puts (data : List Byte) (dim : Nat) (dType : DataType) :
    Puts (·.genValueDependTensorKey data dim dType)
      (baseBytes dType formatND 1 ++ le8 (UInt64.ofNat dim) ++ data) := by
  intro b
  have hhead : (baseBytes dType formatND 1 ++ le8 (UInt64.ofNat dim)).length = 14 := by
    rw [length_append, length_baseBytes, length_le8]
  have hroom := le_remain_reserve b (le_chunks (14 + data.length))
  obtain ⟨b₁, h₁, hkey₁, hremain⟩ := put_of_le (b.reserve (14 + data.length)
    ((14 + data.length) / maxArgsKeyLen + 1)) (baseBytes dType formatND 1 ++
      le8 (UInt64.ofNat dim)) (by omega)
  obtain ⟨b₂, h₂, hkey₂, -⟩ := put_of_le b₁ data (by omega)
  refine ⟨b₂, ?_, by rw [hkey₂, hkey₁, reserve_key, append_assoc]⟩
  show ((b.reserve _ _).put _).bind (fun b => b.put data) = some b₂
  rw [h₁]
  exact h₂

theorem genArrayKey_puts (bytes : α → List Byte) (dType : DataType) (array : Option (Sized α)) :
    Puts (·.genArrayKey bytes dType array) (arrayBytes bytes dType array) := by
  cases array with
  | none => exact genPlaceHolderKey_puts
  | some array => exact genValueDependTensorKey_puts _ _ _

theorem addPrev_puts (prev : Option Tensor) (cnt : Nat) :
    Puts (·.addPrev prev cnt) (prevBytes prev cnt) := by
  cases prev with
  | none => exact Puts.nothing
  | some t =>
    have hcount : Puts (fun b => (b.reserve 1 1).put [UInt8.ofNat cnt]) [UInt8.ofNat cnt] :=
      puts_reserve rfl (by decide)
    exact (addShapeInfo_puts t).bind hcount

theorem tensorListLoop_puts : ∀ (xs : List (Option Tensor)) (prev : Option Tensor) (cnt : Nat),
    Puts (·.tensorListLoop prev cnt xs) (loopBytes prev cnt xs)
  | [], prev, cnt => addPrev_puts prev cnt
  | x :: xs, prev, cnt => by
    by_cases hsame : x ≠ none ∧ x = prev
    · have hloop := tensorListLoop_puts xs prev (cnt + 1)
      unfold KeyBuf.tensorListLoop loopBytes
      simp only [if_pos hsame]
      exact hloop
    · unfold KeyBuf.tensorListLoop loopBytes
      simp only [if_neg hsame]
      refine (addPrev_puts prev cnt).bind ?_
      cases x with
      | none => exact genPlaceHolderKey_puts.bind (tensorListLoop_puts xs none cnt)
      | some t => exact tensorListLoop_puts xs (some t) 1

theorem genTensorListKey_puts (tensors : Option (List (Option Tensor))) :
    Puts (·.genTensorListKey tensors) (tensorListBytes tensors) := by
  unfold tensorListBytes
  split
  next => exact genPlaceHolderKey_puts
  next => exact genPlaceHolderKey_puts
  next x xs => exact tensorListLoop_puts xs x 1

theorem genScalarKey_puts (slotType : Nat → DataType) (scalar : Option ElementType) (index : Nat)
    (srcIndex : Option Nat) (dtype : Option ElementType) :
    Puts (·.genScalarKey slotType scalar index srcIndex dtype)
      (scalarBytes slotType scalar index srcIndex dtype) := by
  cases scalar with
  | none => exact genPlaceHolderKey_puts
  | some own => exact puts_reserve (length_baseBytes _ _ _) (by decide)

/-- A scalar list without a null in front. -/
def Input.Served : Input → Prop
  | .scalarList (some (none :: _)) _ _ => False
  | _ => True

variable {slotType : Nat → DataType} {index : Nat}

theorem genScalarListKey_puts {scalars : Option (List (Option ElementType))} {srcIndex : Option Nat}
    {dtype : Option ElementType} (h : (Input.scalarList scalars srcIndex dtype).Served) :
    Puts (·.genScalarListKey slotType scalars index srcIndex dtype)
      (scalarListBytes slotType scalars index srcIndex dtype) := by
  match scalars, h with
  | none, _ => exact genPlaceHolderKey_puts
  | some [], _ => exact genPlaceHolderKey_puts
  | some (some own :: rest), _ =>
    refine puts_reserve ?_ (by decide)
    rw [length_append, length_baseBytes, length_le8]

theorem addInput_puts {input : Input} (h : input.Served) :
    Puts (·.addInput slotType input index) (inputBytes slotType input index) := by
  cases input with
  | tensor t => exact genTensorKey_puts t
  | intArray a => exact genArrayKey_puts _ _ a
  | boolArray a => exact genArrayKey_puts _ _ a
  | floatArray a => exact genArrayKey_puts _ _ a
  | tensorList ts => exact genTensorListKey_puts ts
  | scalar s srcIndex dtype => exact genScalarKey_puts slotType s index srcIndex dtype
  | scalarList ss srcIndex dtype => exact genScalarListKey_puts h

theorem groupMark_puts (index : Nat) : Puts (·.genGroupMark index) (groupMark index) := by
  unfold groupMark KeyBuf.genGroupMark
  by_cases h : index = 0
  · simp only [if_pos h]
    exact genPlaceHolderKey_puts
  · simp only [if_neg h]
    exact Puts.nothing

theorem addOutput_puts (output : Output) (index : Nat) :
    Puts (·.addOutput output index) (outputBytes output index) := by
  cases output with
  | tensor t => exact (groupMark_puts index).bind (genTensorKey_puts t)
  | tensorList ts => exact (groupMark_puts index).bind (genTensorListKey_puts ts)

theorem addAttr_puts (attr : Attr) (index : Nat) :
    Puts (·.addAttr attr index) (attrBytes attr index) :=
  (groupMark_puts index).bind (puts_reserve (Eq.refl attr.bytes.length) (le_chunks _))

theorem addMarked_puts (h : bytes.length ≤ maxArgsKeyLen) :
    Puts (·.addMarked bytes) (placeHolder :: bytes) :=
  genPlaceHolderKey_puts.bind (puts_reserve rfl (by omega))

theorem served_of_addInput {b b' : KeyBuf} {input : Input}
    (h : b.addInput slotType input index = some b') : input.Served := by
  match input, h with
  | .scalarList (some (none :: _)) _ _, h => cases h
  | .scalarList none _ _, _ | .scalarList (some []) _ _, _ | .scalarList (some (some _ :: _)) _ _, _
  | .tensor _, _ | .intArray _, _ | .boolArray _, _ | .floatArray _, _ | .tensorList _, _
  | .scalar _ _ _, _ => trivial

theorem served_of_foldlM : ∀ {ps : List (Input × Nat)} {b b' : KeyBuf} {p : Input × Nat},
    ps.foldlM (fun b p => b.addInput slotType p.1 p.2) b = some b' → p ∈ ps → p.1.Served
  | q :: ps, b, b', p, h, hp => by
    rw [foldlM_cons] at h
    obtain ⟨b₁, h₁, hrest⟩ := Option.bind_eq_some_iff.mp h
    rcases mem_cons.mp hp with rfl | hp
    · exact served_of_addInput h₁
    · exact served_of_foldlM hrest hp

namespace Call

variable {c : Call}

/-- The key of a call whose scalar lists can be read: the type, and the bytes of each part. -/
theorem key_eq (h : ∀ input ∈ c.inputs, input.Served) :
    c.key = some (c.opType.val ++
      (c.inputsBytes ++ (c.outputsBytes ++ (c.attrsBytes ++ c.closing)))) := by
  have hinputs : ∀ p ∈ c.inputs.zipIdx,
      Puts (·.addInput c.slotType p.1 p.2) (inputBytes c.slotType p.1 p.2) :=
    fun p hp => addInput_puts (h p.1 (fst_mem_of_mem_zipIdx hp))
  have hcores : Puts (·.addCoreNumInfo c.aicNum c.aivNum)
      (placeHolder :: (le 4 c.aicNum.toNat ++ le 4 c.aivNum.toNat)) := by
    refine addMarked_puts ?_
    rw [length_append, length_le, length_le]
    decide
  have hrank : Puts (·.addMc2RankIdInfo c.mc2RankId) (placeHolder :: le 4 c.mc2RankId.toNat) := by
    refine addMarked_puts ?_
    rw [length_le]
    decide
  have houtputs : ∀ p ∈ c.outputs.zipIdx, Puts (·.addOutput p.1 p.2) (outputBytes p.1 p.2) :=
    fun p _ => addOutput_puts p.1 p.2
  have hattrs : ∀ p ∈ c.attrs.zipIdx, Puts (·.addAttr p.1 p.2) (attrBytes p.1 p.2) :=
    fun p _ => addAttr_puts p.1 p.2
  have hall := (Puts.foldlM hinputs).bind <| (Puts.foldlM houtputs).bind <|
    (Puts.foldlM hattrs).bind <| hcores.bind hrank
  obtain ⟨b, hb, hkey⟩ := hall (KeyBuf.start c.opType)
  unfold Call.key
  have hbuf : c.keyBuf = some b := hb
  rw [hbuf, Option.map_some, hkey]
  rfl

/-- If there is a key, the scalar lists could be read. -/
theorem served_of_key {k : List Byte} (h : c.key = some k) :
    ∀ input ∈ c.inputs, input.Served := by
  unfold Call.key at h
  obtain ⟨b, hb, -⟩ := Option.map_eq_some_iff.mp h
  obtain ⟨b', hb', -⟩ := Option.bind_eq_some_iff.mp hb
  intro input hinput
  obtain ⟨i, hi, rfl⟩ := getElem_of_mem hinput
  have hmem : (c.inputs[i], i) ∈ c.inputs.zipIdx :=
    mk_mem_zipIdx_iff_getElem?.mpr (getElem?_eq_getElem hi)
  exact served_of_foldlM hb' hmem

theorem key_eq_some {k : List Byte} (h : c.key = some k) :
    k = c.opType.val ++ (c.inputsBytes ++ (c.outputsBytes ++ (c.attrsBytes ++ c.closing))) :=
  Option.some.inj (h.symm.trans (key_eq (served_of_key h)))

end Call

/-! ## The key from the slots -/

namespace SlotCall

theorem foldlM_put : ∀ {pieces : List (List Byte)} {b : KeyBuf},
    pieces.flatten.length ≤ b.remainKeyLen →
      ∃ b', pieces.foldlM KeyBuf.put b = some b' ∧ b'.key = b.key ++ pieces.flatten
  | [], b, _ => ⟨b, rfl, (append_nil _).symm⟩
  | piece :: pieces, b, h => by
    rw [flatten_cons, length_append] at h
    obtain ⟨b₁, h₁, hkey₁, hremain⟩ := put_of_le b piece (by omega)
    have hroom : pieces.flatten.length ≤ b₁.remainKeyLen := by omega
    obtain ⟨b₂, h₂, hkey₂⟩ := foldlM_put hroom
    refine ⟨b₂, ?_, by rw [hkey₂, hkey₁, flatten_cons, append_assoc]⟩
    rw [foldlM_cons, h₁]
    exact h₂

theorem length_slotInfo (s : Slot) : (slotInfo s).length = 6 + 8 * s.storageShape.val.length := by
  unfold slotInfo
  rw [length_append, length_baseBytes, length_dimBytes, Nat.mul_comm]

/-- `CalcKeyLen` counts what `GenArgsKey` writes. -/
theorem calcKeyLen_eq (c : SlotCall) : c.calcKeyLen = c.pieces.flatten.length := by
  -- the lengths that the code adds up, part by part
  have hinputs : ∀ ss : List (Option Slot), (ss.map inputSlotBytes).flatten.length =
      (ss.map fun s => s.elim 1 fun s =>
        6 + 8 * s.storageShape.val.length + s.value.elim 0 List.length).sum := by
    intro ss
    rw [length_flatten, map_map]
    congr 1
    apply map_congr_left
    intro s _
    rcases s with _ | ⟨d, f, sh, _ | v⟩
    · rfl
    · show (slotInfo _ ++ []).length = _
      rw [append_nil, length_slotInfo]
      rfl
    · show (slotInfo _ ++ v).length = _
      rw [length_append, length_slotInfo]
      rfl
  have houtputs : ∀ ss : List (Option Slot), (ss.map outputSlotBytes).flatten.length =
      (ss.map fun s => s.elim 1 fun s => 6 + 8 * s.storageShape.val.length).sum := by
    intro ss
    rw [length_flatten, map_map]
    congr 1
    apply map_congr_left
    intro s _
    cases s with
    | none => rfl
    | some s => exact length_slotInfo s
  have hattrs : (c.attrs.map Attr.bytes).flatten.length =
      (c.attrs.map fun a => a.bytes.length).sum := by
    rw [length_flatten, map_map]
    rfl
  unfold calcKeyLen pieces
  simp only [flatten_append, length_append, flatten_cons, flatten_nil,
    length_nil, length_cons, hinputs, houtputs, hattrs, length_le]
  omega

theorem key_eq (c : SlotCall) : c.key = some c.pieces.flatten := by
  unfold SlotCall.key
  have hroom : c.pieces.flatten.length ≤ max maxArgsKeyLen c.calcKeyLen :=
    Nat.le_trans (Nat.le_of_eq c.calcKeyLen_eq.symm) (Nat.le_max_right _ _)
  obtain ⟨b, hb, hkey⟩ := foldlM_put (b := ⟨[], max maxArgsKeyLen c.calcKeyLen,
    max maxArgsKeyLen c.calcKeyLen, Nat.le_of_eq (Nat.zero_add _)⟩) hroom
  have hkey' : b.key = c.pieces.flatten := hkey
  show (c.pieces.foldlM KeyBuf.put _).map (fun b => b.key.take c.calcKeyLen) = _
  rw [hb, Option.map_some, hkey', c.calcKeyLen_eq, take_length]

end SlotCall

end OpBase.Indv
