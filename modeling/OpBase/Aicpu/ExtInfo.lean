import OpBase.Lib.Tlv
import OpBase.Lib.Words

/-!
# The extend info the host sends along with an AICPU kernel

`nnopbase/aicpu/task_handler/aicpu_ext_info_handle.cpp`: `GenCCExtBuffer` appends one
type-length-value entry after the other to a string, the shapes of the tensors among
them. An entry is built in a string of its own, filled with blanks: what is not
assigned stays blank.

The structures it assigns come with the adapter's headers, and so do the codes of the
entry types. `Adapter` has what both sides rely on; nothing is assumed of where the
fields lie.

> `encodeEntries_spec`: each tensor gets its entry, the dimensions with the end mark
> behind them, and no byte beside the entries changes.
>
> `genCCExtBuffer_entries`: the string is made of the six entries, in that order.
-/

namespace OpBase.Aicpu

open List OpBase.Lib
open Option (bind_eq_some_iff some.inj)

/-! ## The adapter -/

/-- `FWKTaskExtInfoType`, as far as either side names it. -/
inductive ExtInfoType
  | shapeType
  | inputShape
  | outputShape
  | opName
  | sessionInfo
  | bitmap
  | topicType
  | asyncWait
  | unknownShapeInputIndex
  | unknownShapeOutputIndex
  | workspaceInfo
  deriving DecidableEq

namespace ExtInfoType

def all : List ExtInfoType :=
  [shapeType, inputShape, outputShape, opName, sessionInfo, bitmap, topicType, asyncWait,
    unknownShapeInputIndex, unknownShapeOutputIndex, workspaceInfo]

theorem mem_all (t : ExtInfoType) : t ∈ all := by
  cases t <;> decide

end ExtInfoType

/-- `ShapeAndType` -/
inductive ShapeField
  | type
  | dims
  deriving DecidableEq

/-- `SessionInfo` -/
inductive SessionField
  | sessionId
  | kernelId
  | sessFlag
  deriving DecidableEq

/-- `AsyncWait` -/
inductive WaitField
  | waitType
  | waitId
  deriving DecidableEq

/-- `WorkSpaceInfo` -/
inductive WorkspaceField
  | size
  | addr
  deriving DecidableEq

/-- `AicpuParamHead` -/
inductive ParamField
  | length
  | ioAddrNum
  | extInfoLength
  | extInfoAddr
  deriving DecidableEq

def kMaxShapeDims : Nat := 8

def ShapeField.width : ShapeField → Nat
  | type => 4
  | dims => 8 * kMaxShapeDims

def SessionField.width : SessionField → Nat
  | sessionId => 8
  | kernelId => 8
  | sessFlag => 1

def WaitField.width : WaitField → Nat
  | waitType => 1
  | waitId => 4

def WorkspaceField.width : WorkspaceField → Nat
  | _ => 8

def ParamField.width : ParamField → Nat
  | length => 4
  | ioAddrNum => 4
  | extInfoLength => 4
  | extInfoAddr => 8

/-- What both sides take from the adapter's headers: the codes of the entry types and
of the wait types, and the layout of the packed structures. The header of an entry is
`ExtInfo`, and `kExtInfoHeadSize` is its size. -/
structure Adapter where
  code : ExtInfoType → Nat
  code_lt : ∀ t, code t < 256 ^ 4
  code_injective : Function.Injective code
  waitTypeNull : Nat
  waitTypeInvalid : Nat
  extInfo : TlvHead
  shapeAndType : Packed ShapeField ShapeField.width
  sessionInfo : Packed SessionField SessionField.width
  asyncWait : Packed WaitField WaitField.width
  workspaceInfo : Packed WorkspaceField WorkspaceField.width
  paramHead : Packed ParamField ParamField.width

/-- if dim count is not reach kMaxShapeDims(8), use INT64_MIN to mark dim end. -/
def kDimEndFlag : Int64 := Int64.minValue

variable {p : Nat}

namespace Adapter

variable (A : Adapter)

/-- The case a `switch` on the code takes. -/
def typeOf? (code : Nat) : Option ExtInfoType := ExtInfoType.all.find? (A.code · = code)

@[simp] theorem typeOf?_code (t : ExtInfoType) : A.typeOf? (A.code t) = some t := by
  unfold typeOf?
  cases hfind : ExtInfoType.all.find? (A.code · = A.code t) with
  | none =>
    have := find?_eq_none.mp hfind t t.mem_all
    simp at this
  | some t' =>
    have := find?_some hfind
    rw [A.code_injective (of_decide_eq_true this)]

/-- The address of `dims` in the entry at `p`. -/
def dims (p : Nat) : Nat := p + A.shapeAndType.off .dims

/-- The dimensions lie in their shape. -/
theorem dims_inside (p : Nat) : A.dims p + 8 * kMaxShapeDims ≤ p + A.shapeAndType.size := by
  have : A.shapeAndType.off .dims + 8 * kMaxShapeDims ≤ A.shapeAndType.size :=
    A.shapeAndType.inside .dims
  unfold dims
  omega

theorem le_dims (p : Nat) : p ≤ A.dims p := Nat.le_add_right _ _

/-! ## The shape of a tensor -/

/-- `dims[k]` of the entry at `p`. -/
def dimAt (m : Mem) (p k : Nat) : Int64 := (m.word (A.dims p) k).toInt64

/-- The assignments `dims[index] = …`, one for each dimension. -/
def dimStores (p : Nat) (shape : List Int64) : List (Nat × UInt64) :=
  Mem.wordStores (A.dims p) (shape.map Int64.toUInt64)

def storeDims (m : Mem) (p : Nat) (shape : List Int64) : Mem :=
  (A.dimStores p shape).foldl Mem.storeWord m

/-- `UpdateShape` -/
def updateShape (m : Mem) (p : Nat) (shape : List Int64) : Option Mem :=
  if 8 < shape.length then none
  else
    let m' := A.storeDims m p shape
    some (if shape.length < kMaxShapeDims
      then m'.storeWord (A.dims p + 8 * shape.length, kDimEndFlag.toUInt64) else m')

variable {A} {shape : List Int64}

/-- A dimension is read from its own bytes. -/
theorem dimAt_frame {m m' : Mem} {k : Nat} (hk : k < kMaxShapeDims)
    (h : ∀ x, A.dims p ≤ x → x < A.dims p + 8 * kMaxShapeDims → m' x = m x) :
    A.dimAt m' p k = A.dimAt m p k := by
  unfold dimAt
  rw [Mem.word_frame fun x hx hx' => h x (by omega) (by omega)]

theorem dimAt_storeDims (m : Mem) (p : Nat) (shape : List Int64) (k : Nat) :
    A.dimAt (A.storeDims m p shape) p k = shape.getD k (A.dimAt m p k) := by
  unfold dimAt
  show ((m.storeWords (A.dims p) (shape.map Int64.toUInt64)).word (A.dims p) k).toInt64 = _
  rw [Mem.word_storeWords, getD_eq_getElem?_getD, getD_eq_getElem?_getD, getElem?_map]
  cases shape[k]? <;> simp

theorem storeDims_of_apart {m : Mem} {x : Nat}
    (h : x < A.dims p ∨ A.dims p + 8 * shape.length ≤ x) : A.storeDims m p shape x = m x :=
  Mem.storeWords_of_apart (by rwa [length_map])

theorem updateShape_isSome {m : Mem} (h : shape.length ≤ 8) :
    ∃ m', A.updateShape m p shape = some m' := by
  unfold updateShape
  rw [if_neg (by omega)]
  exact ⟨_, rfl⟩

/-- An updated shape reads as the new dimensions and the end flag behind them, then as before. -/
theorem updateShape_dimAt {m m' : Mem} (h : A.updateShape m p shape = some m') {k : Nat}
    (hk : k < kMaxShapeDims) :
    A.dimAt m' p k = (shape ++ [kDimEndFlag]).getD k (A.dimAt m p k) := by
  unfold updateShape at h
  split at h
  · simp at h
  next hlen =>
    rw [← some.inj h]
    by_cases hk' : k < shape.length
    · rw [getD_append _ _ _ _ hk', ← dimAt_storeDims]
      split
      · unfold dimAt
        rw [Mem.storeWord, Mem.word_store_of_apart _ (by omega)]
      · rfl
    · rw [getD_append_right _ _ _ _ (by omega), if_pos (by omega)]
      by_cases hmark : k = shape.length
      · rw [hmark, Nat.sub_self, getD_cons_zero, dimAt, ← Mem.word_zero, Mem.word_store,
          Int64.toInt64_toUInt64]
      · have hold : A.dimAt (A.storeDims m p shape) p k = A.dimAt m p k := by
          rw [dimAt_storeDims, getD_eq_default _ _ (by omega)]
        rw [getD_eq_default _ _ (by simp; omega), ← hold]
        unfold dimAt
        rw [Mem.storeWord, Mem.word_store_of_apart _ (by omega)]

/-- Updating a shape changes its dimensions only. -/
theorem updateShape_of_apart {m m' : Mem} {x : Nat} (h : A.updateShape m p shape = some m')
    (hx : x < A.dims p ∨ A.dims p + 8 * kMaxShapeDims ≤ x) : m' x = m x := by
  unfold updateShape at h
  split at h
  · simp at h
  next hlen =>
    unfold kMaxShapeDims at hx
    rw [← some.inj h]
    have hdims : A.storeDims m p shape x = m x := storeDims_of_apart (by omega)
    split
    next hshort =>
      unfold kMaxShapeDims at hshort
      rw [← hdims]
      exact Mem.store_of_apart _ _ (by omega)
    · exact hdims

end Adapter

/-- What the extend info has of a tensor. -/
structure AclTensor where
  dataType : UInt32
  originalShape : List Int64

/-! ## Building the string -/

structure AicpuExtInfoHandler where
  nodeName : List Byte
  unknownType : UInt32

section Generation

variable (A : Adapter)

/-- The entries of the tensors, from the one at `p` on. -/
def encodeEntries : Mem → Nat → List AclTensor → Option Mem
  | m, _, [] => some m
  | m, p, t :: ts => do
    let m' ← A.updateShape (A.shapeAndType.set m p .type t.dataType.toNat) p t.originalShape
    encodeEntries m' (p + A.shapeAndType.size) ts

/-- A blank string for an entry with a body of `n` bytes, its header assigned. -/
def blankEntry (type : ExtInfoType) (n : Nat) : Str where
  size := A.extInfo.size + n
  byte := A.extInfo.set (A.extInfo.set (fun _ => 32) 0 .type (A.code type)) 0 .len n

def appendExtInfoShape (tensors : List AclTensor) (type : ExtInfoType) (taskExtInfo : Str) :
    Option Str := do
  let s := blankEntry A type (A.shapeAndType.size * tensors.length)
  let byte ← encodeEntries A s.byte A.extInfo.size tensors
  some (taskExtInfo.append { s with byte := byte })

def appendExtBitMap (taskExtInfo : Str) : Str :=
  -- 0 is for dynamic, 1 is for static
  taskExtInfo.append ((blankEntry A .bitmap 8).store A.extInfo.size 8 0)

def appendSessionInfo (kernelId : UInt64) (taskExtInfo : Str) : Str :=
  let s := blankEntry A .sessionInfo A.sessionInfo.size
  let byte := A.sessionInfo.set s.byte A.extInfo.size .sessionId 0
  let byte := A.sessionInfo.set byte A.extInfo.size .kernelId kernelId.toNat
  let byte := A.sessionInfo.set byte A.extInfo.size .sessFlag 1
  taskExtInfo.append { s with byte := byte }

/-- `SECUREC_STRING_MAX_LEN`: `strcpy_s` refuses a longer destination. -/
def securecStringMaxLen : Nat := 0x7fffffff

/-- The characters up to the terminator, and the terminator; it may lie behind the
string, where the string has one as well. -/
def appendExtOpName (nodeName : List Byte) (taskExtInfo : Str) : Option Str :=
  if securecStringMaxLen < nodeName.length + 1 then none
  else
    let s := blankEntry A .opName nodeName.length
    let byte := s.byte.place A.extInfo.size (Str.ofList (nodeName.takeWhile (· ≠ 0) ++ [0]))
    some (taskExtInfo.append { s with byte := byte })

def appendExtShapeType (unknownType : UInt32) (taskExtInfo : Str) : Str :=
  taskExtInfo.append ((blankEntry A .shapeType 4).store A.extInfo.size 4 unknownType.toNat)

/-- `GenerateKernelId`: the id, and the counter for the next one. -/
def generateKernelId (gKernelId : UInt64) : UInt64 × UInt64 := (gKernelId, gKernelId + 1)

/-- `GenCCExtBuffer`, with the counter of the kernel ids. -/
def genCCExtBuffer (h : AicpuExtInfoHandler) (gKernelId : UInt64)
    (inputs outputs : List AclTensor) (taskExtInfo : Str) : Option (Str × UInt64) := do
  -- WARNING: OP NAME MUST BE THE FIRST EXTEND INFO FOR RUNTIME!!!
  let s ← appendExtOpName A h.nodeName taskExtInfo
  let s := appendExtShapeType A h.unknownType s
  let s := appendExtBitMap A s
  let s ← appendExtInfoShape A inputs .inputShape s
  let s ← appendExtInfoShape A outputs .outputShape s
  let (kernelId, gKernelId) := generateKernelId gKernelId
  some (appendSessionInfo A kernelId s, gKernelId)

end Generation

/-! ## What the string has -/

section Encoded

variable {A : Adapter} {type : ExtInfoType} {h : AicpuExtInfoHandler}

/-- The entry at `p` has the tensor; behind the mark stands what `m` has there. -/
structure EncodedFrom (A : Adapter) (m m' : Mem) (p : Nat) (t : AclTensor) : Prop where
  type : A.shapeAndType.get m' p .type = t.dataType.toNat
  dims : ∀ k, k < kMaxShapeDims →
    A.dimAt m' p k = (t.originalShape ++ [kDimEndFlag]).getD k (A.dimAt m p k)

/-- Shapes of up to eight dimensions can be encoded. -/
theorem encodeEntries_isSome : ∀ {ts : List AclTensor} {m : Mem} {p : Nat},
    (∀ t ∈ ts, t.originalShape.length ≤ 8) → ∃ m', encodeEntries A m p ts = some m'
  | [], m, _, _ => ⟨m, rfl⟩
  | t :: ts, m, p, h => by
    obtain ⟨m₁, hm₁⟩ := Adapter.updateShape_isSome (A := A)
      (m := A.shapeAndType.set m p .type t.dataType.toNat) (p := p) (h t mem_cons_self)
    obtain ⟨m₂, hm₂⟩ : ∃ m₂, encodeEntries A m₁ (p + A.shapeAndType.size) ts = some m₂ :=
      encodeEntries_isSome fun t ht => h t (mem_cons_of_mem _ ht)
    refine ⟨m₂, ?_⟩
    rw [encodeEntries, hm₁]
    exact hm₂

/-- By induction on the tensors: each entry is encoded at its place, and nothing else is changed. -/
theorem encodeEntries_spec : ∀ {ts : List AclTensor} {m m' : Mem} {p : Nat},
    encodeEntries A m p ts = some m' →
    (∀ x, x < p ∨ p + A.shapeAndType.size * ts.length ≤ x → m' x = m x) ∧
    ∀ i t, ts[i]? = some t → EncodedFrom A m m' (p + A.shapeAndType.size * i) t
  | [], m, m', p, h => by
    rw [← some.inj h]
    exact ⟨fun _ _ => rfl, fun i t hi => by simp at hi⟩
  | t :: ts, m, m', p, h => by
    obtain ⟨m₁, hm₁, hrest⟩ := bind_eq_some_iff.mp h
    obtain ⟨hframe, hts⟩ := encodeEntries_spec hrest
    have htype : A.shapeAndType.off .type + 4 ≤ A.shapeAndType.size := A.shapeAndType.inside .type
    have hdims := A.dims_inside p
    have hle := A.le_dims p
    have hm₁of : ∀ x, x < p ∨ p + A.shapeAndType.size ≤ x → m₁ x = m x := by
      intro x hx
      rw [Adapter.updateShape_of_apart hm₁ (by omega), A.shapeAndType.set_of_apart _ _ _ hx]
    refine ⟨?_, ?_⟩
    · intro x hx
      rw [length_cons, Nat.mul_succ] at hx
      rw [hframe x (by omega), hm₁of x (by omega)]
    · intro i t' hi
      cases i with
      | zero =>
        obtain rfl : t = t' := some.inj hi
        have hapart : A.shapeAndType.off .type + 4 ≤ A.shapeAndType.off .dims ∨
            A.shapeAndType.off .dims + 8 * kMaxShapeDims ≤ A.shapeAndType.off .type :=
          A.shapeAndType.apart .type .dims ShapeField.noConfusion
        -- the entries behind it leave this one alone
        refine ⟨?_, ?_⟩
        · have hkept : A.shapeAndType.get m' (p + A.shapeAndType.size * 0) .type
              = A.shapeAndType.get m₁ p .type :=
            A.shapeAndType.get_frame fun x _ hx => hframe x (by change x < p + _ + 4 at hx; omega)
          have hset : A.shapeAndType.get m₁ p .type
              = A.shapeAndType.get (A.shapeAndType.set m p .type t.dataType.toNat) p .type :=
            A.shapeAndType.get_frame fun x hx hx' => by
              change x < p + _ + 4 at hx'
              unfold Adapter.dims at hdims
              exact Adapter.updateShape_of_apart hm₁ (by unfold Adapter.dims; omega)
          rw [hkept, hset]
          exact A.shapeAndType.get_set t.dataType.toNat_lt
        · intro k hk
          rw [Nat.mul_zero, Nat.add_zero]
          have hkept : A.dimAt m' p k = A.dimAt m₁ p k :=
            Adapter.dimAt_frame hk fun x _ hx => hframe x (by omega)
          have hold : A.dimAt (A.shapeAndType.set m p .type t.dataType.toNat) p k
              = A.dimAt m p k := by
            apply Adapter.dimAt_frame hk
            intro x hx hx'
            unfold Adapter.dims at hx hx'
            exact Mem.store_of_apart _ _ (show _ ∨ p + _ + 4 ≤ x by omega)
          rw [hkept, Adapter.updateShape_dimAt hm₁ hk, hold]
      | succ i =>
        obtain ⟨hty, hdim⟩ := hts i t' hi
        have haddr : p + A.shapeAndType.size + A.shapeAndType.size * i
            = p + A.shapeAndType.size * (i + 1) := by
          rw [Nat.mul_succ]
          omega
        rw [haddr] at hty hdim
        refine ⟨hty, ?_⟩
        intro k hk
        have hold : A.dimAt m₁ (p + A.shapeAndType.size * (i + 1)) k
            = A.dimAt m (p + A.shapeAndType.size * (i + 1)) k := by
          have := A.le_dims (p + A.shapeAndType.size * (i + 1))
          rw [← haddr] at this ⊢
          exact Adapter.dimAt_frame hk fun x hx _ => hm₁of x (by omega)
        rw [hdim k hk, hold]

/-- A dimension nobody assigned: eight blanks. -/
def blankDim : Int64 := 0x2020202020202020

/-- A string that starts with the header of an entry and has room for its body. -/
structure IsEntry (A : Adapter) (s : Str) (type : ExtInfoType) (n : Nat) : Prop where
  size : s.size = A.extInfo.size + n
  type : A.extInfo.get s.byte 0 .type = A.code type
  len : A.extInfo.get s.byte 0 .len = n % 256 ^ 4

theorem isEntry_blankEntry (type : ExtInfoType) (n : Nat) :
    IsEntry A (blankEntry A type n) type n where
  size := rfl
  type := by
    show A.extInfo.get (A.extInfo.set _ 0 .len n) 0 .type = _
    rw [A.extInfo.get_set_of_ne _ _ _ TlvField.noConfusion, A.extInfo.get_set (A.code_lt type)]
  len := Mem.load_store _ _ _ _

/-- Filling the body keeps the head of an entry. -/
theorem IsEntry.body {s : Str} {n : Nat} (h : IsEntry A s type n) {byte : Mem}
    (hbyte : ∀ x, x < A.extInfo.size → byte x = s.byte x) :
    IsEntry A { s with byte := byte } type n where
  size := h.size
  type := by
    have := A.extInfo.inside .type
    rw [← h.type]
    exact A.extInfo.get_frame fun x _ hx => hbyte x (by omega)
  len := by
    have := A.extInfo.inside .len
    rw [← h.len]
    exact A.extInfo.get_frame fun x _ hx => hbyte x (by omega)

theorem blankEntry_dimAt (type : ExtInfoType) (n : Nat) (h : A.extInfo.size ≤ p) {k : Nat}
    (hk : k < kMaxShapeDims) : A.dimAt (blankEntry A type n).byte p k = blankDim := by
  have hle := A.le_dims p
  have hblank : A.dimAt (blankEntry A type n).byte p k = A.dimAt (fun _ => 32) p k :=
    Adapter.dimAt_frame hk fun x hx _ => by
      show A.extInfo.set (A.extInfo.set _ 0 .type _) 0 .len n x = 32
      rw [A.extInfo.set_of_apart _ _ _ (by omega), A.extInfo.set_of_apart _ _ _ (by omega)]
  have hload : Mem.load (fun _ => 32) (A.dims p + 8 * k) 8 = 0x2020202020202020 := by
    simp only [Mem.load]
    decide
  rw [hblank, Adapter.dimAt, Mem.word, hload]
  rfl

/-- The entry of the shapes of the tensors `ts`. -/
structure IsShapeEntry (A : Adapter) (s : Str) (type : ExtInfoType) (ts : List AclTensor) :
    Prop where
  entry : IsEntry A s type (A.shapeAndType.size * ts.length)
  typeOf : ∀ i t, ts[i]? = some t →
    A.shapeAndType.get s.byte (A.extInfo.size + A.shapeAndType.size * i) .type = t.dataType.toNat
  dims : ∀ i t, ts[i]? = some t → ∀ k, k < kMaxShapeDims →
    A.dimAt s.byte (A.extInfo.size + A.shapeAndType.size * i) k
      = (t.originalShape ++ [kDimEndFlag]).getD k blankDim

/-- The entry of the shapes is appended. -/
theorem appendExtInfoShape_spec {ts : List AclTensor} {t s : Str}
    (h : appendExtInfoShape A ts type t = some s) :
    ∃ e, s = t.append e ∧ IsShapeEntry A e type ts := by
  obtain ⟨byte, hbyte, hs⟩ := bind_eq_some_iff.mp h
  obtain ⟨hframe, hts⟩ := encodeEntries_spec hbyte
  refine ⟨_, (some.inj hs).symm, ?_⟩
  refine ⟨?_, fun i t' hi => (hts i t' hi).type, ?_⟩
  · exact (isEntry_blankEntry type _).body fun x hx => hframe x (Or.inl hx)
  · intro i t' hi k hk
    have hblank := blankEntry_dimAt (A := A) type (A.shapeAndType.size * ts.length)
      (p := A.extInfo.size + A.shapeAndType.size * i) (by omega) hk
    rw [← hblank]
    exact (hts i t' hi).dims k hk

/-- The strings `GenCCExtBuffer` appends. -/
structure CCExt where
  opName : Str
  shapeType : Str
  bitMap : Str
  inputShape : Str
  outputShape : Str
  session : Str

def CCExt.str (e : CCExt) : Str :=
  (((((Str.empty.append e.opName).append e.shapeType).append e.bitMap).append e.inputShape).append
    e.outputShape).append e.session

structure CCExt.Built (A : Adapter) (e : CCExt) (h : AicpuExtInfoHandler) (kernelId : UInt64)
    (inputs outputs : List AclTensor) : Prop where
  opName : IsEntry A e.opName .opName h.nodeName.length
  shapeType : IsEntry A e.shapeType .shapeType 4
  bitMap : IsEntry A e.bitMap .bitmap 8
  bitMapZero : e.bitMap.byte.load A.extInfo.size 8 = 0
  inputShape : IsShapeEntry A e.inputShape .inputShape inputs
  outputShape : IsShapeEntry A e.outputShape .outputShape outputs
  session : IsEntry A e.session .sessionInfo A.sessionInfo.size
  kernelId : A.sessionInfo.get e.session.byte A.extInfo.size .kernelId = kernelId.toNat

/-- The entry of the name is appended. -/
theorem appendExtOpName_spec {nodeName : List Byte} {t s : Str}
    (h : appendExtOpName A nodeName t = some s) :
    ∃ e, s = t.append e ∧ IsEntry A e .opName nodeName.length := by
  unfold appendExtOpName at h
  split at h
  · simp at h
  · refine ⟨_, (some.inj h).symm, ?_⟩
    apply (isEntry_blankEntry .opName _).body
    intro x hx
    exact if_neg (by omega)

/-- The entry of the session, with the kernel's id. -/
theorem isEntry_session (kernelId : UInt64) : ∃ e : Str,
    (∀ t, appendSessionInfo A kernelId t = t.append e) ∧
    IsEntry A e .sessionInfo A.sessionInfo.size ∧
    A.sessionInfo.get e.byte A.extInfo.size .kernelId = kernelId.toNat := by
  refine ⟨_, fun t => rfl, ?_, ?_⟩
  · apply (isEntry_blankEntry .sessionInfo _).body
    intro x hx
    have hset : ∀ (m : Mem) (f : SessionField) (v : Nat),
        A.sessionInfo.set m A.extInfo.size f v x = m x :=
      fun m f v => A.sessionInfo.set_of_apart m f v (Or.inl hx)
    rw [hset, hset, hset]
  · dsimp only
    rw [A.sessionInfo.get_set_of_ne _ _ _ SessionField.noConfusion,
      A.sessionInfo.get_set kernelId.toNat_lt]

/-- The extend info is made of six entries. -/
theorem genCCExtBuffer_entries {gKernelId gKernelId' : UInt64} {inputs outputs : List AclTensor}
    {s : Str}
    (hgen : genCCExtBuffer A h gKernelId inputs outputs Str.empty = some (s, gKernelId')) :
    ∃ e : CCExt, s = e.str ∧ e.Built A h gKernelId inputs outputs := by
  obtain ⟨s₁, hs₁, hgen⟩ := bind_eq_some_iff.mp hgen
  obtain ⟨s₂, hs₂, hgen⟩ := bind_eq_some_iff.mp hgen
  obtain ⟨s₃, hs₃, hgen⟩ := bind_eq_some_iff.mp hgen
  obtain ⟨opName, rfl, hopName⟩ := appendExtOpName_spec hs₁
  obtain ⟨inputShape, rfl, hinput⟩ := appendExtInfoShape_spec hs₂
  obtain ⟨outputShape, rfl, houtput⟩ := appendExtInfoShape_spec hs₃
  obtain ⟨session, hsession, hentry, hid⟩ := isEntry_session (A := A) gKernelId
  have hs : appendSessionInfo A gKernelId _ = s := congrArg Prod.fst (some.inj hgen)
  rw [hsession] at hs
  refine ⟨⟨opName, _, _, inputShape, outputShape, session⟩, hs.symm, ?_⟩
  refine ⟨hopName, ?_, ?_, ?_, hinput, houtput, hentry, hid⟩
  · apply (isEntry_blankEntry .shapeType 4).body
    intro x hx
    exact Mem.store_of_apart _ _ (by omega)
  · apply (isEntry_blankEntry .bitmap 8).body
    intro x hx
    exact Mem.store_of_apart _ _ (by omega)
  · exact Mem.load_store _ _ _ _

/-- It can be made for every name that fits and shapes of up to eight dimensions. -/
theorem genCCExtBuffer_isSome (gKernelId : UInt64) {inputs outputs : List AclTensor} (t : Str)
    (hname : h.nodeName.length + 1 ≤ securecStringMaxLen)
    (hin : ∀ t ∈ inputs, t.originalShape.length ≤ 8)
    (hout : ∀ t ∈ outputs, t.originalShape.length ≤ 8) :
    ∃ s, genCCExtBuffer A h gKernelId inputs outputs t = some (s, gKernelId + 1) := by
  have hshape : ∀ ts type t, (∀ t ∈ ts, t.originalShape.length ≤ 8) →
      ∃ s, appendExtInfoShape A ts type t = some s := by
    intro ts type t hts
    obtain ⟨byte, hbyte⟩ := encodeEntries_isSome (A := A)
      (m := (blankEntry A type (A.shapeAndType.size * ts.length)).byte) (p := A.extInfo.size) hts
    refine ⟨t.append { blankEntry A type (A.shapeAndType.size * ts.length) with byte := byte }, ?_⟩
    unfold appendExtInfoShape
    dsimp only
    rw [hbyte]
    rfl
  unfold genCCExtBuffer appendExtOpName
  rw [if_neg (by omega)]
  obtain ⟨s₂, hs₂⟩ := hshape inputs .inputShape _ hin
  obtain ⟨s₃, hs₃⟩ := hshape outputs .outputShape s₂ hout
  refine ⟨appendSessionInfo A gKernelId s₃, ?_⟩
  refine bind_eq_some_iff.mpr ⟨_, rfl, bind_eq_some_iff.mpr ⟨s₂, hs₂, ?_⟩⟩
  exact bind_eq_some_iff.mpr ⟨s₃, hs₃, rfl⟩

end Encoded

end OpBase.Aicpu
