import OpBase.Aicpu.ShapeReturn

/-!
# The context a kernel runs on

`aicpu_common/context/common/cpu_kernel_cache.cc` and `context.cc`: a context is made
of a node definition, the attributes of the call and its share of the workspace.
`UpdateTensor` then puts the addresses of a call into it, and the shapes if the call
brings any; a tensor whose shape is not brought keeps the one it has.

`inputDims`, `outputDims`, `inputData` and `outputData` say what a call brings.

> `updateTensor_spec`: after an update that succeeds every tensor has the address of
> the call, and the shape of the call or else the one it had.
-/

namespace OpBase.Aicpu

open OpBase.Lib
open Option (bind_eq_some_iff getD_none getD_some some.inj)
open Prod (mk.inj)

/-! ## Tensors -/

/-- The element sizes of `GetSizeByDataType`. -/
def sizeMap : List (Nat × Int) :=
  [(0, 4), (1, 2), (2, 1), (6, 2), (7, 2), (4, 1), (3, 4), (9, 8), (8, 4), (10, 8), (12, 1),
    (11, 8), (13, -1), (14, 1), (15, 1), (16, 8), (17, 16), (18, 1), (19, 2), (20, 4), (21, 1),
    (22, 2), (23, -1), (24, -1), (25, 5), (27, 2), (30, 1), (31, 1), (32, 1), (29, 1), (33, 4),
    (34, 1), (36, 1), (35, 1), (40, 1), (41, 1), (37, 1)]

def getSizeByDataType (dataType : Nat) : Int := (sizeMap.lookup dataType).getD (-1)

/-- `KERNEL_CHECK_ASSIGN_64S_MULTI` -/
def assignMulti (a b : Int) : Option Int :=
  if a ≠ 0 ∧ b ≠ 0 ∧ (2 ^ 63 - 1) / a ≤ b then none else some (a * b)

/-- `NumElements`, from the product of the dimensions before. -/
def numElementsFrom : Int → List Int64 → Int
  | num, [] => num
  | num, d :: ds =>
    if d < 0 then -1
    else match assignMulti num d.toInt with
      | none => -1
      | some num => numElementsFrom num ds

def numElements (dims : List Int64) : Int := numElementsFrom 1 dims

def calcDataSizeByShape (dataType : Nat) (dims : List Int64) : Int :=
  let dataSize := numElements dims
  let elementSize := getSizeByDataType dataType
  if dataSize < 0 ∨ elementSize < 0 then -1
  else (assignMulti dataSize elementSize).getD (-1)

/-- `Tensor` -/
structure CpuTensor where
  dataType : Nat
  dims : List Int64
  data : UInt64
  dataSize : UInt64

/-- `max(0, static_cast<uint64_t>(CalcDataSizeByShape()))` -/
def CpuTensor.setDataSize (t : CpuTensor) : CpuTensor :=
  { t with dataSize := UInt64.ofNat (calcDataSizeByShape t.dataType t.dims % 2 ^ 64).toNat }

/-- `AttrValue`: a number, or what else an attribute may be. -/
inductive AttrValue
  | int (i : Int64)
  | bytes (bs : List Byte)
  deriving DecidableEq

/-- What `ParseFromString` makes of the bytes of a node definition. -/
structure NodeDef where
  opType : List Byte
  inputs : List CpuTensor
  outputs : List CpuTensor
  attrs : String → Option AttrValue

/-- `AddAttrs`: an attribute that is there already stays. -/
def addAttrs (attrs : String → Option AttrValue) (name : String) (value : AttrValue) :
    String → Option AttrValue :=
  if (attrs name).isSome then attrs else Function.update attrs name (some value)

inductive DeviceType
  | device
  | host
  deriving DecidableEq

structure CpuKernelContext where
  opType : List Byte
  inputs : List CpuTensor
  outputs : List CpuTensor
  attrs : String → Option AttrValue
  deviceType : DeviceType
  workspaceSize : UInt64
  workspaceAddr : UInt64

/-! ## The tensors of a call -/

/-- A call as it was parsed: the memory it points into, the addresses, the bytes of the
node definition and the message. -/
structure Params where
  mem : Mem
  ioAddrs : List UInt64
  nodeDef : List Byte
  msg : ExtInfoMsg

section Update

variable (A : Adapter) (p : Params)

/-- `shape[k]` of the tensor descriptor at `desc`. -/
def descWord (m : Mem) (desc k : Nat) : Int64 := (m.word (desc + descShape) k).toInt64

/-- The dimensions a tensor descriptor has. -/
def descDims (m : Mem) (desc : Nat) : List Int64 :=
  (List.range (descWord m desc 0).toInt.toNat).map fun k => descWord m desc (k + 1)

/-- The dimensions the call brings for input `i`. -/
def inputDims (i : Nat) : Option (List Int64) :=
  if p.msg.unknownShape then
    some (getDimsFromShapeAndType A p.mem (p.msg.inputShapeAndType.getD i 0))
  else (p.msg.unknownShapeInputIndexAddr.lookup i).map fun _ =>
    descDims p.mem (p.ioAddrs.getD i 0).toNat

/-- The address the call brings for input `i`, behind its descriptor if it has one. -/
def inputData (i : Nat) : UInt64 :=
  let addr := p.ioAddrs.getD i 0
  match p.msg.unknownShapeInputIndexAddr.lookup i with
  | some _ => p.mem.word addr.toNat 0
  | none => addr

def outputDims (i : Nat) : Option (List Int64) :=
  if p.msg.unknownShape then
    some (getDimsFromShapeAndType A p.mem (p.msg.outputShapeAndType.getD i 0))
  else none

/-- The addresses of the outputs come behind those of the `n` inputs. -/
def outputData (n i : Nat) : UInt64 :=
  let addr := p.ioAddrs.getD (n + i) 0
  match p.msg.unknownShapeOutputIndexAddr.lookup i with
  | some _ => p.mem.word addr.toNat 0
  | none => addr

/-- The shape behind the pointer of tensor `i`, if the call has unknown shapes. -/
def setShape (ptrs : List Nat) (i : Nat) (t : CpuTensor) : CpuTensor :=
  if p.msg.unknownShape then
    { t with dims := getDimsFromShapeAndType A p.mem (ptrs.getD i 0) }
  else t

/-- The address of input `i`, and the shape if it has a descriptor: the tensor, and
whether to go on. A negative number of dimensions is read without end. -/
def placeInput (i : Nat) (t : CpuTensor) : Option (CpuTensor × Bool) :=
  let addr := p.ioAddrs.getD i 0
  match p.msg.unknownShapeInputIndexAddr.lookup i with
  | some _ =>
    let n := (descWord p.mem addr.toNat 0).toInt
    if (kMaxDimSize : Int) < n then some (t, false)
    else if n < 0 then none
    else some ({ t with dims := descDims p.mem addr.toNat, data := p.mem.word addr.toNat 0 }, true)
  | none => some ({ t with data := addr }, true)

def finishInput (i : Nat) (t : CpuTensor) : CpuTensor × Bool :=
  let t := setShape A p p.msg.inputShapeAndType i t
  if numElements t.dims < 0 then (t, false) else (t.setDataSize, true)

/-- The first loop of `UpdateTensor`, for input `i`. -/
def updateInput (i : Nat) (t : CpuTensor) : Option (CpuTensor × Bool) :=
  (placeInput p i t).map fun r => if r.2 then finishInput A p i r.1 else r

/-- The address of output `i`. -/
def placeOutput (n i : Nat) (t : CpuTensor) : CpuTensor :=
  let addr := p.ioAddrs.getD (n + i) 0
  match p.msg.unknownShapeOutputIndexAddr.lookup i with
  | some _ => { t with data := p.mem.word addr.toNat 0 }
  | none => { t with data := addr }

def finishOutput (i : Nat) (t : CpuTensor) : CpuTensor × Bool :=
  let noTiling := p.msg.unknownShapeOutputIndexAddr.isEmpty
  let t := setShape A p p.msg.outputShapeAndType i t
  if p.msg.unknownShape ∨ noTiling = false ∨ 0 ≤ numElements t.dims
  then (t.setDataSize, true) else (t, false)

/-- The second loop, for output `i`. -/
def updateOutput (n i : Nat) (t : CpuTensor) : Option (CpuTensor × Bool) :=
  some (finishOutput A p i (placeOutput p n i t))

/-- Each tensor in turn, up to the first that is refused. -/
def updateEach (f : Nat → CpuTensor → Option (CpuTensor × Bool)) :
    Nat → List CpuTensor → Option (List CpuTensor × Bool)
  | _, [] => some ([], true)
  | i, t :: ts => do
    let (t', ok) ← f i t
    if ok then do
      let (ts', ok') ← updateEach f (i + 1) ts
      some (t' :: ts', ok')
    else some (t' :: ts, false)

/-- `UpdateTensor`. The addresses it notes in the message are those of the call. -/
def updateTensor (ctx : CpuKernelContext) : Option (CpuKernelContext × Bool) :=
  if p.ioAddrs.length ≠ ctx.inputs.length + ctx.outputs.length then some (ctx, false)
  else if p.msg.unknownShape = true ∧ (p.msg.inputShapeAndType.length ≠ ctx.inputs.length ∨
      p.msg.outputShapeAndType.length ≠ ctx.outputs.length) then some (ctx, false)
  else do
    let (inputs, ok) ← updateEach (updateInput A p) 0 ctx.inputs
    if ok then do
      let (outputs, ok) ← updateEach (updateOutput A p ctx.inputs.length) 0 ctx.outputs
      some ({ ctx with inputs := inputs, outputs := outputs }, ok)
    else some ({ ctx with inputs := inputs }, false)

end Update

/-! ## What an update leaves -/

section Spec

variable {A : Adapter} {p : Params}

@[simp] theorem setShape_data (ptrs : List Nat) (i : Nat) (t : CpuTensor) :
    (setShape A p ptrs i t).data = t.data := by
  unfold setShape
  split <;> rfl

theorem setShape_dims (ptrs : List Nat) (i : Nat) (t : CpuTensor) :
    (setShape A p ptrs i t).dims = (if p.msg.unknownShape then
      some (getDimsFromShapeAndType A p.mem (ptrs.getD i 0)) else none).getD t.dims := by
  unfold setShape
  by_cases h : p.msg.unknownShape
  · rw [if_pos h, if_pos h, getD_some]
  · rw [if_neg h, if_neg h, getD_none]

variable {t t' : CpuTensor} {i : Nat} {f : Nat → CpuTensor → Option (CpuTensor × Bool)}

theorem finishInput_ok (h : finishInput A p i t = (t', true)) :
    t'.data = t.data ∧ t'.dims = (setShape A p p.msg.inputShapeAndType i t).dims := by
  unfold finishInput at h
  dsimp only at h
  split at h
  · cases h
  · obtain ⟨rfl, -⟩ := mk.inj h
    exact ⟨setShape_data _ _ _, rfl⟩

theorem finishOutput_ok (h : finishOutput A p i t = (t', true)) :
    t'.data = t.data ∧ t'.dims = (setShape A p p.msg.outputShapeAndType i t).dims := by
  unfold finishOutput at h
  dsimp only at h
  split at h
  · obtain ⟨rfl, -⟩ := mk.inj h
    exact ⟨setShape_data _ _ _, rfl⟩
  · cases h

theorem placeInput_ok (h : placeInput p i t = some (t', true)) :
    t'.data = inputData p i ∧ t'.dims =
      ((p.msg.unknownShapeInputIndexAddr.lookup i).map fun _ =>
        descDims p.mem (p.ioAddrs.getD i 0).toNat).getD t.dims := by
  unfold placeInput at h
  unfold inputData
  cases hat : p.msg.unknownShapeInputIndexAddr.lookup i with
  | none =>
    rw [hat] at h
    obtain ⟨rfl, -⟩ := mk.inj (some.inj h)
    exact ⟨rfl, rfl⟩
  | some d =>
    rw [hat] at h
    dsimp only at h
    split at h
    · cases some.inj h
    · split at h
      · cases h
      · obtain ⟨rfl, -⟩ := mk.inj (some.inj h)
        refine ⟨rfl, ?_⟩
        rw [Option.map_some, getD_some]

/-- The dimensions of a tensor are those of the message, if it has any. -/
theorem setShape_placed {t t₁ : CpuTensor} (h : placeInput p i t = some (t₁, true)) :
    (setShape A p p.msg.inputShapeAndType i t₁).dims = (inputDims A p i).getD t.dims := by
  rw [setShape_dims]
  unfold inputDims
  by_cases hunknown : p.msg.unknownShape
  · simp only [hunknown, if_true, getD_some]
  · simp only [hunknown, Bool.false_eq_true, if_false, getD_none, (placeInput_ok h).2]

theorem updateInput_ok (h : updateInput A p i t = some (t', true)) :
    t'.data = inputData p i ∧ t'.dims = (inputDims A p i).getD t.dims := by
  obtain ⟨⟨t₁, ok⟩, ht₁, h⟩ := Option.map_eq_some_iff.mp h
  cases ok with
  | false => cases h
  | true =>
    obtain ⟨hdata, hdims⟩ := finishInput_ok h
    exact ⟨hdata.trans (placeInput_ok ht₁).1, hdims.trans (setShape_placed ht₁)⟩

theorem updateOutput_ok {n : Nat} (h : updateOutput A p n i t = some (t', true)) :
    t'.data = outputData p n i ∧ t'.dims = (outputDims A p i).getD t.dims := by
  obtain ⟨hdata, hdims⟩ := finishOutput_ok (some.inj h)
  rw [hdata, hdims, setShape_dims]
  unfold placeOutput outputData outputDims
  cases p.msg.unknownShapeOutputIndexAddr.lookup i with
  | none | some _ => exact ⟨rfl, rfl⟩

theorem updateEach_length :
    ∀ {i : Nat} {ts ts' : List CpuTensor} {ok : Bool},
      updateEach f i ts = some (ts', ok) → ts'.length = ts.length
  | _, [], ts', ok, h => by
    rw [← (mk.inj (some.inj h)).1]
  | i, t :: ts, ts', ok, h => by
    obtain ⟨⟨t', ok'⟩, ht', h⟩ := bind_eq_some_iff.mp h
    dsimp only at h
    split at h
    · obtain ⟨⟨us, ok''⟩, hus, h⟩ := bind_eq_some_iff.mp h
      obtain ⟨rfl, -⟩ := mk.inj (some.inj h)
      rw [List.length_cons, List.length_cons, updateEach_length hus]
    · obtain ⟨rfl, -⟩ := mk.inj (some.inj h)
      rfl

theorem updateEach_ok :
    ∀ {i : Nat} {ts ts' : List CpuTensor}, updateEach f i ts = some (ts', true) →
      ∀ j t, ts[j]? = some t → ∃ t', ts'[j]? = some t' ∧ f (i + j) t = some (t', true)
  | _, [], _, _, j, t, hj => by simp at hj
  | i, t₀ :: ts, ts', h, j, t, hj => by
    obtain ⟨⟨t', ok'⟩, ht', h⟩ := bind_eq_some_iff.mp h
    dsimp only at h
    split at h
    next hok =>
      obtain ⟨⟨us, ok''⟩, hus, h⟩ := bind_eq_some_iff.mp h
      obtain ⟨rfl, rfl⟩ := mk.inj (some.inj h)
      cases j with
      | zero =>
        obtain rfl : t₀ = t := some.inj hj
        rw [hok] at ht'
        exact ⟨t', rfl, ht'⟩
      | succ j =>
        rw [show i + (j + 1) = i + 1 + j by omega]
        exact updateEach_ok hus j t hj
    · cases some.inj h

/-- Updating changes the tensors of a context only. -/
theorem updateTensor_frame {ctx ctx' : CpuKernelContext} {ok : Bool}
    (h : updateTensor A p ctx = some (ctx', ok)) :
    ctx'.attrs = ctx.attrs ∧ ctx'.deviceType = ctx.deviceType ∧
    ctx'.workspaceSize = ctx.workspaceSize ∧ ctx'.workspaceAddr = ctx.workspaceAddr ∧
    ctx'.inputs.length = ctx.inputs.length ∧ ctx'.outputs.length = ctx.outputs.length := by
  unfold updateTensor at h
  split at h
  · obtain ⟨rfl, -⟩ := mk.inj (some.inj h)
    exact ⟨rfl, rfl, rfl, rfl, rfl, rfl⟩
  · split at h
    · obtain ⟨rfl, -⟩ := mk.inj (some.inj h)
      exact ⟨rfl, rfl, rfl, rfl, rfl, rfl⟩
    · obtain ⟨⟨inputs, okIn⟩, hin, h⟩ := bind_eq_some_iff.mp h
      dsimp only at h
      split at h
      · obtain ⟨⟨outputs, okOut⟩, hout, h⟩ := bind_eq_some_iff.mp h
        obtain ⟨rfl, -⟩ := mk.inj (some.inj h)
        exact ⟨rfl, rfl, rfl, rfl, updateEach_length hin, updateEach_length hout⟩
      · obtain ⟨rfl, -⟩ := mk.inj (some.inj h)
        exact ⟨rfl, rfl, rfl, rfl, updateEach_length hin, rfl⟩

/-- Updated tensors have the addresses of the launch and the dimensions of the message, if it has
any. -/
theorem updateTensor_spec {ctx ctx' : CpuKernelContext}
    (h : updateTensor A p ctx = some (ctx', true)) :
    (∀ i t, ctx.inputs[i]? = some t → ∃ t', ctx'.inputs[i]? = some t' ∧
      t'.data = inputData p i ∧ t'.dims = (inputDims A p i).getD t.dims) ∧
    ∀ i t, ctx.outputs[i]? = some t → ∃ t', ctx'.outputs[i]? = some t' ∧
      t'.data = outputData p ctx.inputs.length i ∧
      t'.dims = (outputDims A p i).getD t.dims := by
  unfold updateTensor at h
  split at h
  · cases some.inj h
  · split at h
    · cases some.inj h
    · obtain ⟨⟨inputs, okIn⟩, hin, h⟩ := bind_eq_some_iff.mp h
      dsimp only at h
      split at h
      next hokIn =>
        obtain ⟨⟨outputs, okOut⟩, hout, h⟩ := bind_eq_some_iff.mp h
        obtain ⟨rfl, rfl⟩ := mk.inj (some.inj h)
        rw [hokIn] at hin
        refine ⟨fun i t hi => ?_, fun i t hi => ?_⟩
        · obtain ⟨t', ht', hf⟩ := updateEach_ok hin i t hi
          rw [Nat.zero_add] at hf
          exact ⟨t', ht', updateInput_ok hf⟩
        · obtain ⟨t', ht', hf⟩ := updateEach_ok hout i t hi
          rw [Nat.zero_add] at hf
          exact ⟨t', ht', updateOutput_ok hf⟩
      · cases some.inj h

end Spec

end OpBase.Aicpu
