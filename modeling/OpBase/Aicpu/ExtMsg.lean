import OpBase.Aicpu.ExtInfo

/-!
# What the device reads of it

`aicpu_common/context/common/cpu_kernel_cache.cc`: `ParseExtMsg` walks the entries of
the extend info with a 32-bit offset, `ParseIoAddr` takes the addresses and the node
definition off the argument block. Both run on the device's memory; the shapes are
not copied, the message points at their entries.

> `parseExtMsg_built`: on the entries the host built the message has the kernel id and
> a pointer to every shape.
>
> `getDims_shapePtrs`: behind the pointers are the shapes of the tensors, in order.
-/

namespace OpBase.Aicpu

open List OpBase.Lib

/-- `KERNEL_STATUS_PARAM_INVALID` and `KERNEL_STATUS_INNER_ERROR`. -/
inductive KernelStatus
  | paramInvalid
  | innerError
  deriving DecidableEq

/-- `map[key] = value`, in the order of the keys. -/
def setKey (key value : Nat) : List (Nat × Nat) → List (Nat × Nat)
  | [] => [(key, value)]
  | (k, v) :: rest =>
    if key < k then (key, value) :: (k, v) :: rest
    else if key = k then (k, value) :: rest
    else (k, v) :: setKey key value rest

/-- `ExtInfoMsg`. The maps are in the order of their keys. -/
structure ExtInfoMsg where
  hasSessInfo : Bool := false
  kernelId : UInt64 := 0
  unknownShape : Bool := false
  asyncFlag : Bool := false
  devicetypeHostFlag : Bool := false
  waitType : UInt8 := 0
  waitId : UInt32 := 0
  inputShapeAndType : List Nat := []
  outputShapeAndType : List Nat := []
  unknownShapeInputIndexAddr : List (Nat × Nat) := []
  unknownShapeOutputIndexAddr : List (Nat × Nat) := []
  workspaceSize : UInt64 := 0
  workspaceAddr : UInt64 := 0

section Parse

variable (A : Adapter) (m : Mem)

/-- `GetDimsFromShapeAndType` -/
def getDimsFromShapeAndType (p : Nat) : List Int64 :=
  takeMarked kDimEndFlag (A.dimAt m p) kMaxShapeDims

def parseExtShapeType (len : Nat) : Except KernelStatus Bool :=
  if len ≠ 4 then .error .paramInvalid else .ok true

/-- `&shapes[0]`, `&shapes[1]`, … -/
def shapePtrs (shapes size : Nat) : List Nat :=
  (List.range size).map fun index => shapes + A.shapeAndType.size * index

def parseExtShapeAndType (unknownShape : Bool) (len body : Nat) (shapeAndType : List Nat) :
    Except KernelStatus (List Nat) :=
  if !unknownShape then .ok shapeAndType
  else if len % A.shapeAndType.size ≠ 0 then .error .paramInvalid
  else .ok (shapeAndType ++ shapePtrs A body (len / A.shapeAndType.size))

def parseExtSessionInfo (len body : Nat) : Except KernelStatus UInt64 :=
  if len ≠ A.sessionInfo.size then .error .paramInvalid
  else .ok (UInt64.ofNat (A.sessionInfo.get m body .kernelId))

def getBitStatus (num pos : UInt64) : Bool := num &&& (1 <<< pos) != 0

def parseExtBitMap (len body : Nat) : Except KernelStatus Bool :=
  if len ≠ 8 then .error .paramInvalid
  else .ok (!getBitStatus (UInt64.ofNat (m.load body 8)) 0)

def kTopicTypeDeviceTypePostion : UInt32 := 7

def kTopicTypeDeviceTypeMask : UInt32 := 0x0080

def parseExtTopicTypeDeviceType (len body : Nat) : Except KernelStatus Bool :=
  if len ≠ 4 then .error .paramInvalid
  else
    let topicTypeInfo := UInt32.ofNat (m.load body 4)
    .ok ((topicTypeInfo &&& kTopicTypeDeviceTypeMask) >>> kTopicTypeDeviceTypePostion != 0)

def parseAsyncWait (len body : Nat) : Except KernelStatus (UInt8 × UInt32) :=
  if len ≠ A.asyncWait.size then .error .paramInvalid
  else .ok (UInt8.ofNat (A.asyncWait.get m body .waitType),
    UInt32.ofNat (A.asyncWait.get m body .waitId))

def parseExtUnknownShapeIndex (len body : Nat) (indexAddr : List (Nat × Nat)) :
    Except KernelStatus (List (Nat × Nat)) :=
  if len % 4 ≠ 0 then .error .paramInvalid
  else .ok ((List.range (len / 4)).foldl
    (fun indexAddr i => setKey (m.load (body + 4 * i) 4) 0 indexAddr) indexAddr)

def parseExtWorkSpaceInfo (len body : Nat) : Except KernelStatus (UInt64 × UInt64) :=
  if len ≠ A.workspaceInfo.size then .error .paramInvalid
  else .ok (UInt64.ofNat (A.workspaceInfo.get m body .size),
    UInt64.ofNat (A.workspaceInfo.get m body .addr))

/-- One round of the loop of `ParseExtMsg`: the entry at `extInfo`. -/
def parseExtEntry (msg : ExtInfoMsg) (infoType infoLen extInfo : Nat) :
    Except KernelStatus ExtInfoMsg :=
  if extInfo = 0 then .error .paramInvalid
  else
    let body := extInfo + A.extInfo.size
    match A.typeOf? infoType with
    | some .shapeType => do
      let unknownShape ← parseExtShapeType infoLen
      .ok { msg with unknownShape := unknownShape }
    | some .inputShape => do
      let ptrs ← parseExtShapeAndType A msg.unknownShape infoLen body msg.inputShapeAndType
      .ok { msg with inputShapeAndType := ptrs }
    | some .outputShape => do
      let ptrs ← parseExtShapeAndType A msg.unknownShape infoLen body msg.outputShapeAndType
      .ok { msg with outputShapeAndType := ptrs }
    | some .sessionInfo => do
      let kernelId ← parseExtSessionInfo A m infoLen body
      .ok { msg with hasSessInfo := true, kernelId := kernelId }
    | some .bitmap => do
      let unknownShape ← parseExtBitMap m infoLen body
      .ok { msg with unknownShape := unknownShape }
    | some .topicType => do
      let flag ← parseExtTopicTypeDeviceType m infoLen body
      .ok { msg with devicetypeHostFlag := flag }
    | some .asyncWait => do
      let (waitType, waitId) ← parseAsyncWait A m infoLen body
      let flag := waitType.toNat ≠ A.waitTypeNull ∧ waitType.toNat ≠ A.waitTypeInvalid
      .ok { msg with
        waitType := waitType, waitId := waitId, asyncFlag := flag ∨ msg.asyncFlag = true }
    | some .unknownShapeInputIndex => do
      let indexAddr ← parseExtUnknownShapeIndex m infoLen body msg.unknownShapeInputIndexAddr
      .ok { msg with unknownShapeInputIndexAddr := indexAddr }
    | some .unknownShapeOutputIndex => do
      let indexAddr ← parseExtUnknownShapeIndex m infoLen body msg.unknownShapeOutputIndexAddr
      .ok { msg with unknownShapeOutputIndexAddr := indexAddr }
    | some .workspaceInfo => do
      let (size, addr) ← parseExtWorkSpaceInfo A m infoLen body
      .ok { msg with workspaceSize := size, workspaceAddr := addr }
    | some .opName | none => .ok msg

/-- `ParseExtMsg`, on the parameters at `paramHead`. -/
def parseExtMsg (paramHead fuel : Nat) (msg : ExtInfoMsg) :
    Option (Except KernelStatus ExtInfoMsg) :=
  walk A.extInfo (parseExtEntry A m) (2 ^ 32) m (A.paramHead.get m paramHead .extInfoAddr)
    (A.paramHead.get m paramHead .extInfoLength) fuel 0 { msg with asyncFlag := false }

end Parse

/-! ## The entries of the host -/

section Built

variable {A : Adapter} {m : Mem} {base : Nat} {s : Str} {type : ExtInfoType}

/-- The addresses of the entries. -/
def CCExt.entryAt (e : CCExt) (base : Nat) : ExtInfoType → Nat
  | .opName => base
  | .shapeType => base + e.opName.size
  | .bitmap => base + e.opName.size + e.shapeType.size
  | .inputShape => base + e.opName.size + e.shapeType.size + e.bitMap.size
  | .outputShape =>
    base + e.opName.size + e.shapeType.size + e.bitMap.size + e.inputShape.size
  | _ =>
    base + e.opName.size + e.shapeType.size + e.bitMap.size + e.inputShape.size
      + e.outputShape.size

structure CCExt.InMem (e : CCExt) (m : Mem) (base : Nat) : Prop where
  opName : m.Holds (e.entryAt base .opName) e.opName
  shapeType : m.Holds (e.entryAt base .shapeType) e.shapeType
  bitMap : m.Holds (e.entryAt base .bitmap) e.bitMap
  inputShape : m.Holds (e.entryAt base .inputShape) e.inputShape
  outputShape : m.Holds (e.entryAt base .outputShape) e.outputShape
  session : m.Holds (e.entryAt base .sessionInfo) e.session

theorem CCExt.inMem {e : CCExt} (h : m.Holds base e.str) : e.InMem m base := by
  have h₁ := h.left
  have h₂ := h₁.left
  have h₃ := h₂.left
  have h₄ := h₃.left
  have h₅ := h₄.left
  have hopName := h₅.right
  have hshapeType := h₄.right
  have hbitMap := h₃.right
  have hinput := h₂.right
  have houtput := h₁.right
  have hsession := h.right
  simp only [Str.size_append, Str.empty, Nat.zero_add, Nat.add_zero, ← Nat.add_assoc] at *
  exact ⟨hopName, hshapeType, hbitMap, hinput, houtput, hsession⟩

theorem IsEntry.get_type {n a : Nat} (h : IsEntry A s type n) (hm : m.Holds a s) :
    A.extInfo.get m a .type = A.code type := by
  rw [← h.type]
  exact A.extInfo.get_holds (k := 0) hm (by rw [h.size]; omega) _

theorem IsEntry.get_len {n a : Nat} (h : IsEntry A s type n) (hm : m.Holds a s) (hn : n < 2 ^ 32) :
    A.extInfo.get m a .len = n := by
  have hlen : A.extInfo.get m a .len = A.extInfo.get s.byte 0 .len :=
    A.extInfo.get_holds (k := 0) hm (by rw [h.size]; omega) _
  rw [hlen, h.len]
  exact Nat.mod_eq_of_lt hn

/-! ## One entry -/

section Step

variable {msg : ExtInfoMsg} {a len : Nat}

theorem parseExtShapeAndType_built (n body : Nat) :
    parseExtShapeAndType A true (A.shapeAndType.size * n) body []
      = .ok (shapePtrs A body n) := by
  have hpos : 0 < A.shapeAndType.size := by
    have := A.shapeAndType.inside .type
    change _ + 4 ≤ _ at this
    omega
  unfold parseExtShapeAndType
  rw [if_neg (by simp), if_neg (by simp), Nat.mul_div_cancel_left n hpos, nil_append]

section

variable (ha : a ≠ 0)
include ha

theorem parseExtEntry_opName :
    parseExtEntry A m msg (A.code .opName) len a = .ok msg := by
  unfold parseExtEntry
  rw [if_neg ha, A.typeOf?_code]

theorem parseExtEntry_shapeType (hlen : len = 4) :
    parseExtEntry A m msg (A.code .shapeType) len a = .ok { msg with unknownShape := true } := by
  have hshape : parseExtShapeType len = .ok true := if_neg (by omega)
  unfold parseExtEntry
  rw [if_neg ha, A.typeOf?_code]
  dsimp only
  rw [hshape]
  rfl

theorem parseExtEntry_bitmap (hlen : len = 8)
    (hzero : m.load (a + A.extInfo.size) 8 = 0) :
    parseExtEntry A m msg (A.code .bitmap) len a = .ok { msg with unknownShape := true } := by
  have hbit : parseExtBitMap m len (a + A.extInfo.size) = .ok true := by
    unfold parseExtBitMap
    rw [if_neg (by omega), hzero]
    rfl
  unfold parseExtEntry
  rw [if_neg ha, A.typeOf?_code]
  dsimp only
  rw [hbit]
  rfl

theorem parseExtEntry_inputShape {n : Nat} (hlen : len = A.shapeAndType.size * n)
    (hunknown : msg.unknownShape = true) (hnil : msg.inputShapeAndType = []) :
    parseExtEntry A m msg (A.code .inputShape) len a
      = .ok { msg with inputShapeAndType := shapePtrs A (a + A.extInfo.size) n } := by
  unfold parseExtEntry
  rw [if_neg ha, A.typeOf?_code, hlen, hunknown, hnil]
  dsimp only
  rw [parseExtShapeAndType_built]
  rfl

theorem parseExtEntry_outputShape {n : Nat} (hlen : len = A.shapeAndType.size * n)
    (hunknown : msg.unknownShape = true) (hnil : msg.outputShapeAndType = []) :
    parseExtEntry A m msg (A.code .outputShape) len a
      = .ok { msg with outputShapeAndType := shapePtrs A (a + A.extInfo.size) n } := by
  unfold parseExtEntry
  rw [if_neg ha, A.typeOf?_code, hlen, hunknown, hnil]
  dsimp only
  rw [parseExtShapeAndType_built]
  rfl

theorem parseExtEntry_sessionInfo (hlen : len = A.sessionInfo.size) {kernelId : UInt64}
    (hid : A.sessionInfo.get m (a + A.extInfo.size) .kernelId = kernelId.toNat) :
    parseExtEntry A m msg (A.code .sessionInfo) len a
      = .ok { msg with hasSessInfo := true, kernelId := kernelId } := by
  have hsession : parseExtSessionInfo A m len (a + A.extInfo.size) = .ok kernelId := by
    unfold parseExtSessionInfo
    rw [if_neg (by omega), hid, UInt64.ofNat_toNat]
  unfold parseExtEntry
  rw [if_neg ha, A.typeOf?_code]
  dsimp only
  rw [hsession]
  rfl

end

end Step

/-! ## The whole message -/

/-- The types and lengths of the entries of the host. -/
def builtEntries (A : Adapter) (h : AicpuExtInfoHandler) (inputs outputs : List AclTensor) :
    List (Nat × Nat) :=
  [(A.code .opName, h.nodeName.length), (A.code .shapeType, 4), (A.code .bitmap, 8),
    (A.code .inputShape, A.shapeAndType.size * inputs.length),
    (A.code .outputShape, A.shapeAndType.size * outputs.length),
    (A.code .sessionInfo, A.sessionInfo.size)]

variable {e : CCExt} {h : AicpuExtInfoHandler} {kernelId : UInt64} {inputs outputs : List AclTensor}

section

variable (hb : e.Built A h kernelId inputs outputs)
include hb

/-- The size of the six entries. -/
theorem CCExt.Built.size :
    e.str.size = entriesSize A.extInfo (builtEntries A h inputs outputs) := by
  have h₁ := hb.opName.size
  have h₂ := hb.shapeType.size
  have h₃ := hb.bitMap.size
  have h₄ := hb.inputShape.entry.size
  have h₅ := hb.outputShape.entry.size
  have h₆ := hb.session.size
  simp only [CCExt.str, Str.size_append, Str.empty, builtEntries, entriesSize, h₁, h₂, h₃, h₄, h₅,
    h₆]
  omega

/-- Each entry ends where the next one starts. -/
theorem CCExt.Built.entryAt_succ (base : Nat) :
    base + A.extInfo.size + h.nodeName.length = e.entryAt base .shapeType ∧
    e.entryAt base .shapeType + A.extInfo.size + 4 = e.entryAt base .bitmap ∧
    e.entryAt base .bitmap + A.extInfo.size + 8 = e.entryAt base .inputShape ∧
    e.entryAt base .inputShape + A.extInfo.size + A.shapeAndType.size * inputs.length
      = e.entryAt base .outputShape ∧
    e.entryAt base .outputShape + A.extInfo.size + A.shapeAndType.size * outputs.length
      = e.entryAt base .sessionInfo := by
  have h₁ := hb.opName.size
  have h₂ := hb.shapeType.size
  have h₃ := hb.bitMap.size
  have h₄ := hb.inputShape.entry.size
  have h₅ := hb.outputShape.entry.size
  simp only [entryAt]
  omega

theorem CCExt.Built.entries (hm : m.Holds base e.str)
    (hsize : e.str.size < 2 ^ 32) : Entries A.extInfo m base (builtEntries A h inputs outputs) := by
  obtain ⟨m₁, m₂, m₃, m₄, m₅, m₆⟩ := CCExt.inMem hm
  obtain ⟨e₂, e₃, e₄, e₅, e₆⟩ := hb.entryAt_succ base
  rw [hb.size] at hsize
  simp only [builtEntries, entriesSize] at hsize
  unfold builtEntries Entries
  refine ⟨⟨hb.opName.get_type m₁, hb.opName.get_len m₁ (by omega)⟩, ?_⟩
  rw [e₂]
  refine ⟨⟨hb.shapeType.get_type m₂, hb.shapeType.get_len m₂ (by omega)⟩, ?_⟩
  rw [e₃]
  refine ⟨⟨hb.bitMap.get_type m₃, hb.bitMap.get_len m₃ (by omega)⟩, ?_⟩
  rw [e₄]
  refine ⟨⟨hb.inputShape.entry.get_type m₄, hb.inputShape.entry.get_len m₄ (by omega)⟩, ?_⟩
  rw [e₅]
  refine ⟨⟨hb.outputShape.entry.get_type m₅, hb.outputShape.entry.get_len m₅ (by omega)⟩, ?_⟩
  rw [e₆]
  exact ⟨⟨hb.session.get_type m₆, hb.session.get_len m₆ (by omega)⟩, trivial⟩

end

/-- The message the entries of the host make. -/
def builtMsg (A : Adapter) (e : CCExt) (base : Nat) (kernelId : UInt64)
    (inputs outputs : List AclTensor) : ExtInfoMsg where
  hasSessInfo := true
  kernelId := kernelId
  unknownShape := true
  inputShapeAndType :=
    shapePtrs A (e.entryAt base .inputShape + A.extInfo.size) inputs.length
  outputShapeAndType :=
    shapePtrs A (e.entryAt base .outputShape + A.extInfo.size) outputs.length

/-- One entry that is taken. -/
theorem visit_ok {σ ε : Type} {step : σ → Nat → Nat → Nat → Except ε σ} {a ty len : Nat}
    {es : List (Nat × Nat)} {s s' : σ} (hstep : step s ty len a = .ok s') :
    visit A.extInfo step a ((ty, len) :: es) s
      = visit A.extInfo step (a + A.extInfo.size + len) es s' := by
  rw [visit, hstep]

section

variable (hb : e.Built A h kernelId inputs outputs) (hm : m.Holds base e.str) (hbase : base ≠ 0)
include hb hm hbase

theorem visit_built :
    visit A.extInfo (parseExtEntry A m) base (builtEntries A h inputs outputs) {}
      = .ok (builtMsg A e base kernelId inputs outputs) := by
  obtain ⟨m₁, m₂, m₃, m₄, m₅, m₆⟩ := CCExt.inMem hm
  obtain ⟨e₂, e₃, e₄, e₅, e₆⟩ := hb.entryAt_succ base
  have h₃ := hb.bitMap.size
  have h₆ := hb.session.size
  have hzero : m.load (e.entryAt base .bitmap + A.extInfo.size) 8 = 0 := by
    rw [m₃.load (by omega), hb.bitMapZero]
  have hid : A.sessionInfo.get m (e.entryAt base .sessionInfo + A.extInfo.size) .kernelId
      = kernelId.toNat := by
    rw [A.sessionInfo.get_holds m₆ (by omega), hb.kernelId]
  have hne : ∀ type, e.entryAt base type ≠ 0 := by
    intro type
    cases type <;> simp only [CCExt.entryAt] <;> omega
  unfold builtEntries
  rw [visit_ok (parseExtEntry_opName hbase), e₂, visit_ok (parseExtEntry_shapeType (hne _) rfl), e₃,
    visit_ok (parseExtEntry_bitmap (hne _) rfl hzero), e₄,
    visit_ok (parseExtEntry_inputShape (hne _) rfl rfl rfl), e₅,
    visit_ok (parseExtEntry_outputShape (hne _) rfl rfl rfl), e₆,
    visit_ok (parseExtEntry_sessionInfo (hne _) rfl hid)]
  rfl

/-- Parsing what the host built gives the message of its entries. -/
theorem parseExtMsg_built (hsize : e.str.size < 2 ^ 32) {paramHead fuel : Nat}
    (haddr : A.paramHead.get m paramHead .extInfoAddr = base)
    (hlen : A.paramHead.get m paramHead .extInfoLength = e.str.size) (hfuel : 6 < fuel) :
    parseExtMsg A m paramHead fuel {} = some (.ok (builtMsg A e base kernelId inputs outputs)) := by
  unfold parseExtMsg
  have hentries := hb.entries hm hsize
  rw [haddr, hlen, walk_entries hentries (by rw [hb.size, Nat.zero_add]) hsize hfuel, Nat.add_zero,
    visit_built hb hm hbase]

end

/-- The dimensions that the device reads are those that the host encoded. -/
theorem getDims_shapePtrs {ts : List AclTensor} {a : Nat} (hs : IsShapeEntry A s type ts)
    (hm : m.Holds a s) (hrank : ∀ t ∈ ts, t.originalShape.length ≤ 8)
    (hflag : ∀ t ∈ ts, kDimEndFlag ∉ t.originalShape) :
    (shapePtrs A (a + A.extInfo.size) ts.length).map (getDimsFromShapeAndType A m)
      = ts.map AclTensor.originalShape := by
  unfold shapePtrs
  rw [map_map]
  apply ext_getElem (by simp)
  intro i hi hi'
  rw [length_map] at hi'
  rw [getElem_map, getElem_map, getElem_range]
  have hts : ts[i]? = some ts[i] := getElem?_eq_getElem hi'
  have hmem : ts[i] ∈ ts := getElem_mem hi'
  -- what the memory has at the place of a dimension
  have hslot : ∀ k, k < kMaxShapeDims → A.dimAt m (a + A.extInfo.size + A.shapeAndType.size * i) k
        = (ts[i].originalShape ++ [kDimEndFlag]).getD k blankDim := by
    intro k hk
    rw [← hs.dims i _ hts k hk]
    have hin := A.dims_inside (A.extInfo.size + A.shapeAndType.size * i)
    have hroom : A.shapeAndType.size * i + A.shapeAndType.size
        ≤ A.shapeAndType.size * ts.length := by
      rw [← Nat.mul_succ]
      exact Nat.mul_le_mul_left _ hi'
    unfold Adapter.dimAt
    rw [← hm.word (by rw [hs.entry.size]; omega)]
    unfold Adapter.dims
    rw [show a + A.extInfo.size + A.shapeAndType.size * i + A.shapeAndType.off .dims
      = a + (A.extInfo.size + A.shapeAndType.size * i + A.shapeAndType.off .dims) by omega]
  rw [Function.comp_apply, getDimsFromShapeAndType]
  apply (takeMarked_eq_iff kDimEndFlag (hrank _ hmem) ?_).mpr
  · refine ⟨hflag _ hmem, ?_⟩
    by_cases hfull : ts[i].originalShape.length = kMaxShapeDims
    · exact Or.inl hfull
    · have hlt : ts[i].originalShape.length < kMaxShapeDims := lt_of_le_of_ne (hrank _ hmem) hfull
      rw [hslot _ hlt, getD_append_right _ _ _ _ le_rfl, Nat.sub_self, getD_cons_zero]
      exact Or.inr rfl
  · intro k hk
    rw [hslot k (lt_of_lt_of_le hk (hrank _ hmem)), getD_append _ _ _ _ hk, getD_eq_getElem _ _ hk]

end Built

end OpBase.Aicpu
