import OpBase.Indv.SlotsFilled
import OpBase.Indv.TilingContext
import OpBase.Lib.Run

/-!
# The tiling context is not overrun

The buffer grows only for ops that have attributes or lists, and its layout is kept between
launches of an op without lists and optional inputs.

> `tiling_context_safe`: as long as every call that lays the context out either may grow the
> buffer or needs no more than it has, and every other call brings attributes that are no
> longer than those the layout was made for, no call writes outside, and nothing it writes or
> leaves overlaps.

What a call relies on is `LaidOut`, for the numbers of tensors the call has. A call that lays
out establishes it, whatever was there before; a call that does not keeps it.
-/

namespace OpBase.Indv

open List OpBase.Lib
open Tensors (Reached initIoCaches)

/-! ## What is to hold -/

/-- The bytes of an attribute. -/
def AttrAddr.bytes (abi : GeSizes) (a : AttrAddr) : Nat :=
  a.size + if a.isVector then abi.continuousVector else 0

/-- The bytes of all attributes, behind their table. -/
def Attrs.bytes (abi : GeSizes) (a : Attrs) : Nat := (a.attrs.map (AttrAddr.bytes abi)).sum

namespace TilingContext

/-- The bytes of the attributes, from `offset` on. -/
def attrData (abi : GeSizes) (base : Nat) : Nat → List AttrAddr → List Extent
  | _, [] => []
  | offset, a :: as =>
    (if a.isVector then [⟨base + offset, abi.vectorElements⟩] else []) ++
      ⟨base + (if a.isVector then offset + abi.vectorElements else offset), a.size⟩ ::
        attrData abi base (offset + a.bytes abi) as

/-- The attributes: their number, the table and the bytes. -/
def attrImage (abi : GeSizes) (base : Nat) (attrs : Attrs) : List Extent :=
  if attrs.attrs.length > 0 then
    ⟨base, 8⟩ :: (Extent.items (base + runtimeAttrsDef) 8 attrs.attrs.length ++
      attrData abi base (runtimeAttrsDef + 8 * attrs.attrs.length) attrs.attrs)
  else []

/-- All that is in the buffer after a call: anchors, descriptors, attributes. -/
def image (abi : GeSizes) (node : NodeExt) (call : TilingCall) : List Extent :=
  Extent.items instStart abi.anchorInstanceInfo call.inputs.instances.length ++
    (Extent.items node.inputTdStart abi.compileTimeTensorDesc call.inputs.num ++
      (Extent.items node.outputTdStart abi.compileTimeTensorDesc call.outputs.num ++
        (attrImage abi node.attrStart call.attrs ++
          Extent.items node.outputInstStart abi.anchorInstanceInfo
            call.outputs.instances.length)))

/-- What is written is part of what is in the buffer, the parts do not overlap each other or
the header and lie inside, and so do the entries of the table that are used. -/
structure Safe (abi : GeSizes) (c : TilingContext) (call : TilingCall) : Prop where
  known : ∀ w ∈ (c.build abi call).writes, w ∈ image abi (c.build abi call).context.node call
  apart : (image abi (c.build abi call).context.node call).Pairwise Extent.Apart
  inside : ∀ x ∈ image abi (c.build abi call).context.node call,
    instStart ≤ x.start ∧ x.stop ≤ (c.build abi call).context.node.bufLen
  values : ∀ i ∈ (c.build abi call).values, i < (c.build abi call).context.valuesNum

/-! ## When it does -/

/-- What the buffer is needed for if there are no attributes. -/
def fixedLen (abi : GeSizes) (call : TilingCall) : Nat :=
  instStart + abi.anchorInstanceInfo * call.inputs.instances.length +
    abi.compileTimeTensorDesc * call.inputs.num + abi.compileTimeTensorDesc * call.outputs.num +
    (runtimeAttrsDef + call.attrs.totalSize) +
    abi.anchorInstanceInfo * call.outputs.instances.length

/-- What a call needs. -/
structure Fits (abi : GeSizes) (c : TilingContext) (call : TilingCall) : Prop where
  /-- A list has no more elements than the table has entries for. -/
  listed : call.inputs.num + call.outputs.num ≤
    call.inputs.nonDynamicCnt + call.outputs.nonDynamicCnt +
      (call.inputs.dynamicNum * dynamicParamDefNum + call.outputs.dynamicNum * dynamicParamDefNum)
  /-- If the buffer cannot grow, all has room. -/
  room : c.relays call → call.attrs.attrs = [] → call.inputs.hasDynamic = false →
    call.outputs.hasDynamic = false → fixedLen abi call ≤ c.node.bufLen
  /-- The attributes have the bytes that are laid out for them: in a new layout those counted
  when they were added, otherwise those of the last layout. -/
  attrs : call.attrs.attrs ≠ [] →
    runtimeAttrsDef + 8 * call.attrs.attrs.length + call.attrs.bytes abi ≤
      if c.relays call then
        runtimeAttrsDef + 8 * call.attrs.attrs.length + call.attrs.totalSize
      else c.node.attrSize

/-- A call on the executor of an op with this signature. -/
structure On (inputDesc outputDesc : List ParamType) (call : TilingCall) : Prop where
  inputs : call.inputs.signature = inputDesc
  outputs : call.outputs.signature = outputDesc
  inputNum : call.inputs.hasDynamic = false → call.inputs.num = call.inputs.nonDynamicCnt
  outputNum : call.outputs.hasDynamic = false → call.outputs.num = call.outputs.nonDynamicCnt

/-! ## Attributes -/

variable {abi : GeSizes} {c : TilingContext} {call : TilingCall} {base : Nat} {w : Extent}

/-- A write for the attributes is one of an offset or one of their data. -/
theorem mem_attrWrites : ∀ {as : List AttrAddr} {i offset : Nat},
    w ∈ attrWrites abi base i offset as →
      w ∈ Extent.items (base + runtimeAttrsDef) 8 (i + as.length) ∨
        w ∈ attrData abi base offset as := by
  intro as
  induction as with
  | nil =>
    intro i offset h
    cases h
  | cons a as ih =>
    intro i offset h
    unfold attrWrites at h
    dsimp only at h
    unfold attrData
    rcases mem_cons.mp h with rfl | h
    · refine Or.inl (Extent.mem_items ?_)
      rw [length_cons]
      omega
    rcases mem_append.mp h with h | h
    · exact Or.inr (mem_append_left _ h)
    split at h
    next =>
      rcases mem_cons.mp h with rfl | h
      · exact Or.inr (mem_append_right _ mem_cons_self)
      · rcases ih h with h | h
        · rw [length_cons, Nat.add_comm as.length, ← Nat.add_assoc]
          exact Or.inl h
        · refine Or.inr (mem_append_right _ (mem_cons_of_mem _ ?_))
          unfold AttrAddr.bytes
          rwa [← Nat.add_assoc]
    next => cases h

theorem mem_attrsUpdt {attrs : Attrs} (hpos : attrs.attrs.length > 0)
    (h : w ∈ attrsUpdt abi base attrs) : w ∈ attrImage abi base attrs := by
  unfold attrImage
  rw [if_pos hpos]
  unfold attrsUpdt at h
  rcases mem_cons.mp h with rfl | h
  · exact mem_cons_self
  · refine mem_cons_of_mem _ (mem_append.mpr ?_)
    have := mem_attrWrites h
    rwa [Nat.zero_add] at this

theorem laid_attrData (abi : GeSizes) (base : Nat) : ∀ (as : List AttrAddr) (offset : Nat),
    Extent.Laid (base + offset) (attrData abi base offset as)
      (base + (offset + (as.map (AttrAddr.bytes abi)).sum)) := by
  intro as
  induction as with
  | nil =>
    intro offset
    exact Nat.le_refl _
  | cons a as ih =>
    intro offset
    have hle := abi.vectorElements_le
    have hrest := ih (offset + a.bytes abi)
    unfold attrData
    rw [map_cons, sum_cons, ← Nat.add_assoc offset]
    unfold AttrAddr.bytes at hrest ⊢
    cases hv : a.isVector with
    | true =>
      simp only [hv, if_true] at hrest ⊢
      refine ⟨Nat.le_refl _, ?_, hrest.mono (Nat.le_refl _) ?_⟩
      · show base + offset + abi.vectorElements ≤ base + (offset + abi.vectorElements)
        omega
      · show base + (offset + abi.vectorElements) + a.size ≤ _
        omega
    | false =>
      simp only [hv, Bool.false_eq_true, if_false, Nat.add_zero] at hrest ⊢
      refine ⟨Nat.le_refl _, hrest.mono (Nat.le_refl _) ?_⟩
      show base + offset + a.size ≤ _
      omega

theorem laid_attrImage (attrs : Attrs) {stop : Nat} (hle : base ≤ stop)
    (hroom : attrs.attrs ≠ [] →
      base + (runtimeAttrsDef + 8 * attrs.attrs.length + attrs.bytes abi) ≤ stop) :
    Extent.Laid base (attrImage abi base attrs) stop := by
  unfold attrImage
  split
  next hpos =>
    have hroom := hroom (ne_nil_of_length_pos hpos)
    refine ⟨Nat.le_refl _, ?_⟩
    have htable := Extent.laid_items (base + runtimeAttrsDef) 8 attrs.attrs.length
    have hdata := laid_attrData abi base attrs.attrs (runtimeAttrsDef + 8 * attrs.attrs.length)
    rw [Nat.add_assoc] at htable
    refine (htable.append hdata).mono ?_ ?_
    · unfold Attrs.bytes at hroom
      exact hroom
    · show base + 8 ≤ base + 48
      omega
  next => exact hle

/-! ## The layout -/

/-- The table has these entries. -/
def Values (abi : GeSizes) (inputDesc outputDesc : List ParamType) (c : TilingContext) : Prop :=
  c.valuesNum = valuesInitNum abi (initIoCaches inputDesc) (initIoCaches outputDesc)

/-- The context is laid out for the tensors of a call. -/
structure LaidOut (abi : GeSizes) (c : TilingContext) (call : TilingCall) : Prop where
  irInputs : c.node.irInputsNum = call.inputs.instances.length
  irOutputs : c.node.irOutputsNum = call.outputs.instances.length
  inputTdStart : c.node.inputTdStart =
    instStart + abi.anchorInstanceInfo * call.inputs.instances.length
  outputTdStart : c.node.outputTdStart =
    c.node.inputTdStart + abi.compileTimeTensorDesc * call.inputs.num
  attrStart : c.node.attrStart = c.node.outputTdStart + abi.compileTimeTensorDesc * call.outputs.num
  outputInstStart : c.node.outputInstStart = c.node.attrStart + c.node.attrSize
  inside : c.node.outputInstStart +
    abi.anchorInstanceInfo * call.outputs.instances.length ≤ c.node.bufLen
  inputSize : c.inputSize = call.inputs.num + call.outputs.num + inputsAppendEnd

theorem LaidOut.laid (h : LaidOut abi c call)
    (hattrs : call.attrs.attrs ≠ [] →
      runtimeAttrsDef + 8 * call.attrs.attrs.length + call.attrs.bytes abi ≤ c.node.attrSize) :
    Extent.Laid instStart (image abi c.node call) c.node.bufLen := by
  have hins := Extent.laid_items instStart abi.anchorInstanceInfo call.inputs.instances.length
  have hinTds :=
    Extent.laid_items c.node.inputTdStart abi.compileTimeTensorDesc call.inputs.num
  have houtTds :=
    Extent.laid_items c.node.outputTdStart abi.compileTimeTensorDesc call.outputs.num
  have houts :=
    Extent.laid_items c.node.outputInstStart abi.anchorInstanceInfo call.outputs.instances.length
  have hdata : Extent.Laid c.node.attrStart (attrImage abi c.node.attrStart call.attrs)
      c.node.outputInstStart := by
    rw [h.outputInstStart]
    exact laid_attrImage call.attrs (Nat.le_add_right _ _)
      fun hne => Nat.add_le_add_left (hattrs hne) _
  rw [← h.inputTdStart] at hins
  rw [← h.outputTdStart] at hinTds
  rw [← h.attrStart] at houtTds
  exact hins.append (hinTds.append (houtTds.append (hdata.append
    (houts.mono h.inside (Nat.le_refl _)))))

theorem LaidOut.congr {call' : TilingCall} (h : LaidOut abi c call)
    (hins : call'.inputs.instances.length = call.inputs.instances.length)
    (houts : call'.outputs.instances.length = call.outputs.instances.length)
    (hinNum : call'.inputs.num = call.inputs.num)
    (houtNum : call'.outputs.num = call.outputs.num) : LaidOut abi c call' := by
  refine ⟨?_, ?_, ?_, ?_, ?_, h.outputInstStart, ?_, ?_⟩
  · rw [hins, h.irInputs]
  · rw [houts, h.irOutputs]
  · rw [hins, h.inputTdStart]
  · rw [hinNum, h.outputTdStart]
  · rw [houtNum, h.attrStart]
  · rw [houts]
    exact h.inside
  · rw [hinNum, houtNum, h.inputSize]

/-! ## One call -/

theorem signature_eq {ts ts' : Tensors} (h : ts.signature = ts'.signature) :
    ts.instances.length = ts'.instances.length ∧ ts.nonDynamicCnt = ts'.nonDynamicCnt ∧
      ts.dynamicNum = ts'.dynamicNum ∧ ts.hasDynamic = ts'.hasDynamic := by
  refine ⟨?_, ?_, ?_, Tensors.hasDynamic_eq_of_signature h⟩
  · have := congrArg List.length h
    unfold Tensors.signature at this
    rwa [length_map, length_map] at this
  · unfold Tensors.nonDynamicCnt
    rw [h]
  · unfold Tensors.dynamicNum
    rw [h]

/-- The node of a new layout has what the call needs, unless the buffer is kept and is too
short. -/
theorem laidOut_placeNode (abi : GeSizes)
    (hins : c.hasPrepared → c.node.irInputsNum = call.inputs.instances.length)
    (houts : c.hasPrepared → c.node.irOutputsNum = call.outputs.instances.length)
    (hroom : call.attrs.attrs = [] → call.inputs.hasDynamic = false →
      call.outputs.hasDynamic = false → fixedLen abi call ≤ c.node.bufLen) :
    LaidOut abi ⟨placeNode abi (c.sizeNode abi call) call, c.valuesNum,
      call.inputs.num + call.outputs.num + inputsAppendEnd, true⟩ call ∧
    (c.sizeNode abi call).attrSize =
      runtimeAttrsDef + call.attrs.totalSize + 8 * call.attrs.attrs.length := by
  -- The numbers do not depend on whether the buffer grows.
  have hnode : ∃ bufLen, c.sizeNode abi call = ⟨bufLen, call.inputs.instances.length,
        call.outputs.instances.length, call.inputs.num, call.outputs.num,
        runtimeAttrsDef + call.attrs.totalSize + 8 * call.attrs.attrs.length,
        c.node.inputTdStart, c.node.outputTdStart, c.node.attrStart, c.node.outputInstStart⟩ ∧
      instStart + abi.anchorInstanceInfo * call.inputs.instances.length +
        abi.compileTimeTensorDesc * call.inputs.num +
        abi.compileTimeTensorDesc * call.outputs.num +
        (runtimeAttrsDef + call.attrs.totalSize + 8 * call.attrs.attrs.length) +
        abi.anchorInstanceInfo * call.outputs.instances.length ≤ bufLen := by
    have hir : (if c.hasPrepared then c.node else
        { c.node with
          irInputsNum := call.inputs.instances.length
          irOutputsNum := call.outputs.instances.length }) =
        { c.node with
          irInputsNum := call.inputs.instances.length
          irOutputsNum := call.outputs.instances.length } := by
      split
      next hprepared => rw [← hins hprepared, ← houts hprepared]
      next => rfl
    unfold sizeNode
    rw [hir]
    dsimp only
    split
    next =>
      have hlen : calcLen abi ⟨c.node.bufLen, call.inputs.instances.length,
          call.outputs.instances.length, call.inputs.num, call.outputs.num,
          runtimeAttrsDef + call.attrs.totalSize + 8 * call.attrs.attrs.length,
          c.node.inputTdStart, c.node.outputTdStart, c.node.attrStart, c.node.outputInstStart⟩
          call.attrs + computeNodeInfo =
        instStart + abi.anchorInstanceInfo * call.inputs.instances.length +
          abi.compileTimeTensorDesc * call.inputs.num +
          abi.compileTimeTensorDesc * call.outputs.num +
          (runtimeAttrsDef + call.attrs.totalSize + 8 * call.attrs.attrs.length) +
          abi.anchorInstanceInfo * call.outputs.instances.length +
          (8 + computeNodeBufLenExt) := by
        show call.inputs.instances.length * abi.anchorInstanceInfo +
          call.outputs.instances.length * abi.anchorInstanceInfo +
          (call.outputs.num + call.inputs.num) * abi.compileTimeTensorDesc + runtimeAttrsDef +
          call.attrs.totalSize + 8 * call.attrs.attrs.length + computeNodeBufLenExt + 88 = _
        unfold instStart
        rw [Nat.add_mul, Nat.mul_comm _ abi.anchorInstanceInfo,
          Nat.mul_comm _ abi.anchorInstanceInfo, Nat.mul_comm _ abi.compileTimeTensorDesc,
          Nat.mul_comm _ abi.compileTimeTensorDesc]
        omega
      split
      next =>
        refine ⟨_, rfl, ?_⟩
        rw [Nat.add_comm computeNodeInfo, hlen]
        omega
      next hle =>
        refine ⟨_, rfl, ?_⟩
        rw [hlen] at hle
        omega
    next hno =>
      rw [not_or, not_or, not_not] at hno
      obtain ⟨hattrs, hin, hout⟩ := hno
      have hle := hroom (eq_nil_of_length_eq_zero hattrs)
        (eq_false_of_ne_true hin) (eq_false_of_ne_true hout)
      refine ⟨_, rfl, ?_⟩
      unfold fixedLen at hle
      omega
  obtain ⟨bufLen, hnode, hle⟩ := hnode
  rw [hnode]
  exact ⟨⟨rfl, rfl, rfl, rfl, rfl, rfl, hle, rfl⟩, rfl⟩

/-- What holds between two calls. -/
structure Ready (abi : GeSizes) (inputDesc outputDesc : List ParamType) (c : TilingContext) :
    Prop where
  values : Values abi inputDesc outputDesc c
  laidOut : c.hasPrepared → ∃ call, On inputDesc outputDesc call ∧ LaidOut abi c call

/-- What holds once a call has the context it needs. -/
structure Prepared (abi : GeSizes) (c : TilingContext) (call : TilingCall) (b : Built) : Prop where
  ok : b.ok = true
  prepared : b.context.hasPrepared = true
  valuesNum : b.context.valuesNum = c.valuesNum
  laidOut : LaidOut abi b.context call
  attrs : call.attrs.attrs ≠ [] →
    runtimeAttrsDef + 8 * call.attrs.attrs.length + call.attrs.bytes abi ≤ b.context.node.attrSize
  writes : ∀ w ∈ b.writes,
    w ∈ Extent.items instStart abi.anchorInstanceInfo call.inputs.instances.length ∨
    w ∈ Extent.items b.context.node.outputInstStart abi.anchorInstanceInfo
      call.outputs.instances.length
  values : ∀ i ∈ b.values, i < call.inputs.num + call.outputs.num + 13

variable {inputDesc outputDesc : List ParamType} {b : Built}

theorem mem_resultIndices {n i : Nat} (h : i ∈ resultIndices n) : i < n + 9 := by
  unfold resultIndices at h
  simp only [mem_cons, not_mem_nil, or_false] at h
  omega

theorem signature_initIoCaches (paramDesc : List ParamType) :
    (initIoCaches paramDesc).signature = paramDesc :=
  (Reached.init : Reached paramDesc _).shaped.signature

theorem le_valuesNum (hvalues : Values abi inputDesc outputDesc c)
    (hcall : On inputDesc outputDesc call) (hfits : Fits abi c call) :
    call.inputs.num + call.outputs.num + 13 ≤ c.valuesNum := by
  obtain ⟨-, hinCnt, hinDynNum, hinDyn⟩ :=
    signature_eq ((signature_initIoCaches inputDesc).trans hcall.inputs.symm)
  obtain ⟨-, houtCnt, houtDynNum, houtDyn⟩ :=
    signature_eq ((signature_initIoCaches outputDesc).trans hcall.outputs.symm)
  have hlisted := hfits.listed
  have hge := abi.tilingOutputNum_ge
  rw [hvalues]
  unfold valuesInitNum inputsAppendEnd
  rw [hinCnt, houtCnt, hinDynNum, houtDynNum, hinDyn, houtDyn]
  dsimp only
  split
  next => omega
  next hno =>
    rw [Bool.or_eq_true, not_or] at hno
    rw [hcall.inputNum (eq_false_of_ne_true hno.1), hcall.outputNum (eq_false_of_ne_true hno.2)]
    omega

theorem mem_tensorDescs {start : Nat} {ts : Tensors} (h : w ∈ tensorDescs abi start ts) :
    w ∈ Extent.items start abi.compileTimeTensorDesc ts.num := by
  obtain ⟨i, hi, rfl⟩ := mem_map.mp h
  exact Extent.mem_items (mem_range.mp (mem_filter.mp hi).1)

theorem context_build (abi : GeSizes) (c : TilingContext) (call : TilingCall) :
    (c.build abi call).context = (c.prepare abi call).context := by
  unfold build
  dsimp only
  split
  next => rfl
  next => rfl

section

variable (hready : Ready abi inputDesc outputDesc c) (hcall : On inputDesc outputDesc call)
  (hfits : Fits abi c call)
include hready hcall hfits

theorem prepared_updtPrepare (hrelays : c.relays call) :
    Prepared abi c call (c.prepare abi call) := by
  -- the node was laid out for as many inputs and outputs
  have hir : c.hasPrepared → c.node.irInputsNum = call.inputs.instances.length ∧
      c.node.irOutputsNum = call.outputs.instances.length := by
    intro hprepared
    obtain ⟨call', hcall', hlaid⟩ := hready.laidOut hprepared
    exact ⟨hlaid.irInputs.trans (signature_eq (hcall'.inputs.trans hcall.inputs.symm)).1,
      hlaid.irOutputs.trans (signature_eq (hcall'.outputs.trans hcall.outputs.symm)).1⟩
  obtain ⟨hlaid, hattrSize⟩ := laidOut_placeNode abi (fun h => (hir h).1)
    (fun h => (hir h).2) (hfits.room hrelays)
  have hin : call.inputs.instances.length ≤
      (placeNode abi (c.sizeNode abi call) call).irInputsNum := Nat.le_of_eq hlaid.irInputs.symm
  have hout : call.outputs.instances.length ≤
      (placeNode abi (c.sizeNode abi call) call).irOutputsNum := Nat.le_of_eq hlaid.irOutputs.symm
  have hattrs := hfits.attrs
  rw [if_pos hrelays] at hattrs
  unfold prepare
  rw [if_pos hrelays]
  unfold updtPrepare setInstInfos
  simp only [hin, hout, decide_true, Bool.not_true, Bool.false_eq_true, if_false,
    Nat.min_eq_left hin, Nat.min_eq_left hout]
  refine ⟨rfl, rfl, rfl, hlaid, fun hne => ?_, fun w hw => mem_append.mp hw, fun i hi => ?_⟩
  · have := hattrs hne
    show _ ≤ (c.sizeNode abi call).attrSize
    omega
  · rcases mem_append.mp hi with hi | hi
    · simp only [mem_cons, not_mem_nil, or_false] at hi
      omega
    · have := mem_resultIndices hi
      unfold inputsAppendEnd at this
      omega

theorem prepared_kept
    (hrelays : ¬ c.relays call = true) : Prepared abi c call (c.prepare abi call) := by
  have hattrs := hfits.attrs
  rw [if_neg hrelays] at hattrs
  unfold prepare
  rw [if_neg hrelays]
  unfold relays at hrelays
  simp only [Bool.or_eq_true, Bool.not_eq_true', decide_eq_true_eq, not_or, Bool.not_eq_true,
    Bool.not_eq_false] at hrelays
  obtain ⟨⟨⟨hprepared, hin⟩, hout⟩, -⟩ := hrelays
  obtain ⟨call', hcall', hlaid⟩ := hready.laidOut hprepared
  obtain ⟨hins, hinCnt, -, hinDyn⟩ := signature_eq (hcall.inputs.trans hcall'.inputs.symm)
  obtain ⟨houts, houtCnt, -, houtDyn⟩ := signature_eq (hcall.outputs.trans hcall'.outputs.symm)
  have hinNum : call.inputs.num = call'.inputs.num := by
    rw [hcall.inputNum hin, hcall'.inputNum (hinDyn ▸ hin), hinCnt]
  have houtNum : call.outputs.num = call'.outputs.num := by
    rw [hcall.outputNum hout, hcall'.outputNum (houtDyn ▸ hout), houtCnt]
  exact ⟨rfl, hprepared, rfl, hlaid.congr hins houts hinNum houtNum, hattrs, nofun, nofun⟩

theorem prepared_prepare :
    Prepared abi c call (c.prepare abi call) := by
  by_cases hrelays : c.relays call = true
  · exact prepared_updtPrepare hready hcall hfits hrelays
  · exact prepared_kept hready hcall hfits hrelays

/-- Building the context writes into its own blocks only. -/
theorem safe_build : Safe abi c call := by
  have hprepared := prepared_prepare hready hcall hfits
  have hlaid := hprepared.laidOut.laid hprepared.attrs
  have hvalues : call.inputs.num + call.outputs.num + 13 ≤ (c.prepare abi call).context.valuesNum :=
    hprepared.valuesNum ▸ le_valuesNum hready.values hcall hfits
  have hcontext := context_build abi c call
  refine ⟨fun w hw => ?_, ?_, ?_, fun i hi => ?_⟩
  · -- every write is one of an extent of the image
    rw [hcontext]
    unfold build at hw
    simp only [hprepared.ok, Bool.not_true, Bool.false_eq_true, if_false] at hw
    unfold image
    rcases mem_append.mp hw with hw | hw
    · rcases hprepared.writes w hw with hw | hw
      · exact mem_append_left _ hw
      · exact mem_append_right _ (mem_append_right _ (mem_append_right _ (mem_append_right _ hw)))
    rcases mem_append.mp hw with hw | hw
    · rcases mem_append.mp hw with hw | hw
      · exact mem_append_right _ (mem_append_left _ (mem_tensorDescs hw))
      · exact mem_append_right _ (mem_append_right _ (mem_append_left _ (mem_tensorDescs hw)))
    · split at hw
      next hpos =>
        exact mem_append_right _ (mem_append_right _ (mem_append_right _
          (mem_append_left _ (mem_attrsUpdt hpos hw))))
      next => cases hw
  · rw [hcontext]
    exact hlaid.pairwise
  · rw [hcontext]
    exact hlaid.bounds
  · rw [hcontext]
    have hsize := hprepared.laidOut.inputSize
    unfold inputsAppendEnd at hsize
    unfold build at hi
    simp only [hprepared.ok, Bool.not_true, Bool.false_eq_true, if_false, mem_append,
      mem_cons, mem_range, mem_map, not_mem_nil, or_false] at hi
    rcases hi with hi | (((hi | hi) | hi) | hi) | ⟨k, hk, rfl⟩
    · have := hprepared.values i hi
      omega
    · omega
    · have := mem_resultIndices hi
      omega
    · omega
    · omega
    · omega

theorem ready_build :
    Ready abi inputDesc outputDesc (c.build abi call).context := by
  have hprepared := prepared_prepare hready hcall hfits
  rw [context_build]
  refine ⟨?_, fun _ => ⟨call, hcall, hprepared.laidOut⟩⟩
  unfold Values
  rw [hprepared.valuesNum]
  exact hready.values

end

theorem ready_init (abi : GeSizes) (inputDesc outputDesc : List ParamType) :
    Ready abi inputDesc outputDesc
      (init abi (initIoCaches inputDesc) (initIoCaches outputDesc)) :=
  ⟨rfl, nofun⟩

/-! ## Runs -/

/-- Every sequence of calls that fit, on the executor of any op, is safe throughout. -/
theorem tiling_context_safe (abi : GeSizes) (inputDesc outputDesc : List ParamType)
    (calls : List TilingCall) (hcalls : ∀ call ∈ calls, On inputDesc outputDesc call)
    (hfits : Along (step abi) (Fits abi)
      (init abi (initIoCaches inputDesc) (initIoCaches outputDesc)) calls) :
    Along (step abi) (Safe abi)
      (init abi (initIoCaches inputDesc) (initIoCaches outputDesc)) calls := by
  have hon : Along (step abi) (fun _ call => On inputDesc outputDesc call) _ calls :=
    Along.of_forall calls
      (init abi (initIoCaches inputDesc) (initIoCaches outputDesc)) hcalls
  refine Along.of_invariant (I := Ready abi inputDesc outputDesc) ?_ ?_ calls (hon.and hfits)
    (ready_init abi inputDesc outputDesc)
  · intro c call c' hready hok hstep
    cases hstep
    exact ready_build hready hok.1 hok.2
  · intro c call hready hok
    exact safe_build hready hok.1 hok.2

/-! ## Examples -/

/-- Sizes like those of GE. -/
def sampleSizes : GeSizes :=
  ⟨48, 104, 64, 56, by decide, 9, by decide⟩

/-- An op with one input, one output and an attribute of so many bytes. -/
def attrCall (size : Nat) : TilingCall :=
  ⟨initIoCaches [.required], initIoCaches [.required], ⟨[⟨size, 0⟩], size⟩⟩

theorem on_attrCall (size : Nat) : On [.required] [.required] (attrCall size) :=
  ⟨rfl, rfl, fun _ => rfl, fun _ => rfl, ⟩

/-- Two launches, the second with a shorter attribute. -/
theorem tiling_context_safe_shorter : Along (step sampleSizes) (Safe sampleSizes)
      (init sampleSizes (initIoCaches [.required]) (initIoCaches [.required]))
      [attrCall 100, attrCall 8] := by
  refine tiling_context_safe sampleSizes [.required] [.required] _ ?_ ?_
  · intro call hcall
    rcases mem_cons.mp hcall with rfl | hcall
    · exact on_attrCall 100
    · rw [mem_singleton.mp hcall]
      exact on_attrCall 8
  · refine ⟨⟨by decide, fun _ h => (nomatch h), fun _ => by decide⟩, fun c hc => ?_⟩
    cases hc
    exact ⟨⟨by decide, fun _ h => (nomatch h), fun _ => by decide⟩, fun _ _ => trivial⟩

/-- The attribute of the second launch is longer: the layout and the buffer stay as they are,
and it is written over the anchors of the outputs and past the end. -/
theorem tiling_context_grown_attr :
    On [.required] [.required] (attrCall 8) ∧ On [.required] [.required] (attrCall 5000) ∧
      ¬ Along (step sampleSizes) (Safe sampleSizes)
        (init sampleSizes (initIoCaches [.required]) (initIoCaches [.required]))
        [attrCall 8, attrCall 5000] := by
  refine ⟨on_attrCall 8, on_attrCall 5000, fun h => ?_⟩
  have hsafe := (h.2 _ rfl).1
  have hinside := hsafe.inside ⟨80 + 48 + 104 + 104 + 48 + 8, 5000⟩ (by decide)
  exact absurd hinside.2 (by decide)

end TilingContext

end OpBase.Indv
