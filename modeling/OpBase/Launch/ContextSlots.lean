import OpBase.Launch.ContextHolder

/-!
# The tensors of a kernel context

What the kernel context is to say, and what the walks over inputs and outputs leave in it. A step
over an argument `Fills` slots: it writes in its area only, and its slots stand. The elements of
a list leave an anchor each as if they were the argument, and the anchor of the list comes last.

> `inputs_done`: the inputs have their slots one behind the other, and each its anchor.
> `outputs_done`: the outputs have the slots behind those.
-/

namespace OpBase.ContextHolder

open List OpBase.Lib OpBase.Lib.WriteLog OpBase.Lib.Extent

/-! ## What the context is to say -/

/-- The tensors of an argument that are not null, in order. -/
def OpArg.tensors : OpArg → List Tensor
  | aclTensor tensor => tensor.toList
  | aclTensorList tensorList => (tensorList.getD []).flatMap Option.toList
  | _ => []

/-- The tensors of all arguments. -/
def tensorsOf (args : List OpArg) : List Tensor := args.flatMap OpArg.tensors

/-- Where the tensors of argument `i` begin among those of all. -/
def startOf (args : List OpArg) (i : Nat) : Nat := (tensorsOf (args.take i)).length

/-- The descriptor of a tensor. -/
def Tensor.cell (t : Tensor) : Cell := .desc t.dataType t.originalFormat t.storageFormat

/-- The bytes of an array: the head and, if there are any, the elements. -/
def arrayCells {α : Type} (abi : GeSizes) (value : List α) (encode : α → List Byte) :
    List (Extent × Cell) :=
  (⟨0, abi.vectorHead⟩, .vector value.length) ::
    if value.isEmpty then []
    else [(⟨abi.vectorElements, (value.flatMap encode).length⟩, .bytes (value.flatMap encode))]

/-- The bytes of an attribute, from where it begins. -/
def OpArg.attrCells (abi : GeSizes) : OpArg → List (Extent × Cell)
  | dataType value => [(⟨0, 8⟩, .bytes (le 8 value.code.toNat))]
  | int ivalue => [(⟨0, 8⟩, .bytes (le8 ivalue))]
  | float fvalue => [(⟨0, 8⟩, .bytes (le 8 fvalue.toNat))]
  | double dvalue => [(⟨0, 8⟩, .bytes (le8 dvalue))]
  | string none => [(⟨0, 1⟩, .bytes [0])]
  | string (some value) => [(⟨0, value.length + 1⟩, .bytes (value ++ [0]))]
  | aclScalar none => [(⟨0, 8⟩, .bytes (le 8 0))]
  | aclScalar (some value) => [(⟨0, value.data.length⟩, .bytes value.data)]
  | intList value => arrayCells abi (value.getD []) le8
  | floatList value => arrayCells abi (value.getD []) fun x => le 4 x.toNat
  | boolList value => arrayCells abi (value.getD []) boolByte
  | _ => []

/-- What an extent is from an offset on. -/
def Extent.shift (off : Nat) (x : Extent) : Extent := ⟨off + x.start, x.len⟩

/-- Descriptor and value of a slot are those of this tensor. -/
def Holder.HasSlot (abi : GeSizes) (h : Holder) (slot : Nat) (t : Tensor) : Prop :=
  Stands h.written (descAt abi (anchorInfo + anchorInstanceInfo * h.irInputsNum) slot) t.cell ∧
    h.opInArg slot = t.tensor

/-- A reader of the context finds the arguments. The tensors of argument `i` are those from
`startOf i` on, so the anchors of the inputs, and those of the outputs, part all tensors
among them in order. -/
structure Faithful (abi : GeSizes) (call : Call) (h : Holder) : Prop where
  opType : h.nodeType = call.opType ∧ h.nodeName = call.opType
  irNums : h.irInputsNum = call.input.length ∧ h.irOutputsNum = call.output.length
  inputsNum : h.inputsNum = (tensorsOf call.input).length
  outputsNum : h.outputsNum = (tensorsOf call.output).length
  attrDef : h.attrDef = anchorInfo + anchorInstanceInfo * h.irInputsNum +
    abi.compileTimeTensorDesc * (h.inputsNum + h.outputsNum)
  inputAnchor : ∀ i arg, call.input[i]? = some arg → ∃ start num : UInt32,
    Stands h.written (anchorAt anchorInfo i) (.anchor start num) ∧
      start.toNat = startOf call.input i ∧ num.toNat = arg.tensors.length
  outputAnchor : ∀ i arg, call.output[i]? = some arg → ∃ start num : UInt32,
    Stands h.written (anchorAt (h.attrDef + h.attrSize) i) (.anchor start num) ∧
      start.toNat = startOf call.output i ∧ num.toNat = arg.tensors.length
  inputSlot : ∀ i arg k t, call.input[i]? = some arg → arg.tensors[k]? = some t →
    h.HasSlot abi (startOf call.input i + k) t
  outputSlot : ∀ i arg k t, call.output[i]? = some arg → arg.tensors[k]? = some t →
    h.HasSlot abi (h.inputsNum + (startOf call.output i + k)) t
  attrNum : Stands h.written ⟨h.attrDef, 8⟩ (.number call.attr.length)
  attrs : ∀ k arg, call.attr[k]? = some arg → ∃ off,
    Stands h.written (offsetAt h.attrDef k) (.number off) ∧
      ∀ c ∈ arg.attrCells abi, Stands h.written (Extent.shift (h.attrDef + off) c.1) c.2

/-- Bytes that `memcpy_s` does not refuse for their number. -/
def Cell.Small : Cell → Prop
  | bytes data => data.length ≤ 0x7fffffff
  | _ => True

instance (cell : Cell) : Decidable cell.Small :=
  match cell with
  | .bytes data => inferInstanceAs (Decidable (data.length ≤ 0x7fffffff))
  | .anchor .. | .desc .. | .number _ | .vector _ => .isTrue trivial

/-- All bytes of the attribute are copied. -/
def OpArg.Copied (abi : GeSizes) (arg : OpArg) : Prop := ∀ c ∈ arg.attrCells abi, c.2.Small

instance (abi : GeSizes) (arg : OpArg) : Decidable (arg.Copied abi) :=
  inferInstanceAs (Decidable (∀ c ∈ arg.attrCells abi, c.2.Small))

/-! ## Places -/

variable {abi : GeSizes}

theorem anchorAt_apart {base i j : Nat} (h : i ≠ j) :
    (anchorAt base i).Apart (anchorAt base j) := by
  unfold anchorAt Apart Extent.stop anchorInstanceInfo
  dsimp only
  omega

theorem descAt_apart {base s s' : Nat} (h : s ≠ s') :
    (descAt abi base s).Apart (descAt abi base s') := by
  have hle := abi.descUsed_le
  unfold descAt Apart Extent.stop
  dsimp only
  rcases Nat.lt_or_gt_of_ne h with hlt | hgt
  · have := Nat.mul_le_mul_left abi.compileTimeTensorDesc hlt
    rw [Nat.mul_succ] at this
    omega
  · have := Nat.mul_le_mul_left abi.compileTimeTensorDesc hgt
    rw [Nat.mul_succ] at this
    omega

theorem anchorAt_apart_descAt {base n i s : Nat} (h : i < n) :
    (anchorAt base i).Apart (descAt abi (base + anchorInstanceInfo * n) s) := by
  unfold anchorAt descAt Apart Extent.stop anchorInstanceInfo
  dsimp only
  omega

/-! ## Slots -/

/-- From one state of log and values to the next, these tensors are put in slots from `start`
on, and nothing is written outside of `area`. -/
structure Fills (abi : GeSizes) (desc : Nat) (area : Extent → Prop) (start : Nat)
    (ts : List Tensor) (log log' : WriteLog Cell) (values values' : Nat → Nat) : Prop where
  written : ∃ ws, log' = log ++ ws ∧ ∀ w ∈ ws, area w.1 ∧ w.2.Small
  slots : ∀ k t, ts[k]? = some t → Stands log' (descAt abi desc (start + k)) t.cell ∧
    values' (start + k) = t.tensor
  others : ∀ s, s < start → values' s = values s

variable {desc start : Nat} {area area' : Extent → Prop} {ts ts' : List Tensor}
  {log log' log'' : WriteLog Cell} {values values' values'' : Nat → Nat} {x : Extent}

theorem Fills.refl : Fills abi desc area start [] log log values values :=
  ⟨⟨[], (append_nil _).symm, fun _ h => absurd h not_mem_nil⟩, nofun, fun _ _ => rfl⟩

section

variable (h : Fills abi desc area start ts log log' values values')
include h

theorem Fills.mono
    (harea : ∀ x, area x → area' x) : Fills abi desc area' start ts log log' values values' := by
  obtain ⟨ws, hws, hw⟩ := h.written
  exact ⟨⟨ws, hws, fun w hmem => ⟨harea _ (hw w hmem).1, (hw w hmem).2⟩⟩, h.slots, h.others⟩

theorem Fills.stands {v : Cell} (hx : Stands log x v) (hapart : ∀ y, area y → y.Apart x) :
    Stands log' x v := by
  obtain ⟨ws, rfl, hw⟩ := h.written
  exact hx.append fun w hmem => hapart _ (hw w hmem).1

/-- Slots filled one after the other. -/
theorem Fills.trans (h' : Fills abi desc area' (start + ts.length) ts' log' log'' values' values'')
    (hapart : ∀ x, area' x → ∀ s, s < start + ts.length → x.Apart (descAt abi desc s)) :
    Fills abi desc (fun x => area x ∨ area' x) start (ts ++ ts') log log'' values values'' := by
  obtain ⟨ws, hws, hw⟩ := h.written
  obtain ⟨ws', hws', hw'⟩ := h'.written
  refine ⟨⟨ws ++ ws', by rw [hws', hws, append_assoc], ?_⟩, ?_, ?_⟩
  · intro w hmem
    rcases mem_append.mp hmem with hmem | hmem
    · exact ⟨Or.inl (hw w hmem).1, (hw w hmem).2⟩
    · exact ⟨Or.inr (hw' w hmem).1, (hw' w hmem).2⟩
  · intro k t hk
    by_cases hlt : k < ts.length
    · rw [getElem?_append_left hlt] at hk
      obtain ⟨hstands, hvalue⟩ := h.slots k t hk
      refine ⟨h'.stands hstands fun y hy => hapart y hy _ (by omega), ?_⟩
      rw [h'.others _ (by omega), hvalue]
    · rw [getElem?_append_right (Nat.not_lt.mp hlt)] at hk
      have hslot := h'.slots _ t hk
      rwa [Nat.add_assoc, Nat.add_sub_of_le (Nat.not_lt.mp hlt)] at hslot
  · intro s hs
    rw [h'.others s (by omega), h.others s hs]

/-! ## Inputs -/

end

/-- Where argument `idx` writes: its anchor, and slots from `start` on. -/
def argArea (abi : GeSizes) (desc idx start : Nat) (x : Extent) : Prop :=
  x = anchorAt anchorInfo idx ∨ ∃ s, start ≤ s ∧ x = descAt abi desc s

variable {idx n : Nat} {h h' : Holder} {tensors : List (Option Tensor)} {args : List OpArg}

theorem argArea_mono {start' : Nat} (hle : start ≤ start') (hx : argArea abi desc idx start' x) :
    argArea abi desc idx start x := by
  rcases hx with rfl | ⟨s, hs, rfl⟩
  · exact Or.inl rfl
  · exact Or.inr ⟨s, hle.trans hs, rfl⟩

theorem argArea_apart (hdesc : desc = anchorInfo + anchorInstanceInfo * n) (hidx : idx < n)
    (hx : argArea abi desc idx start x) {s : Nat} (hs : s < start) :
    x.Apart (descAt abi desc s) := by
  rcases hx with rfl | ⟨s', hs', rfl⟩
  · rw [hdesc]
    exact anchorAt_apart_descAt hidx
  · exact descAt_apart (by omega)

theorem Fills.setAnchor (hdesc : desc = anchorInfo + anchorInstanceInfo * n) (hidx : idx < n)
    (h : Fills abi desc (argArea abi desc idx start) start ts log log' values values')
    {cell : Cell} (hsmall : cell.Small) :
    Fills abi desc (argArea abi desc idx start) start ts log
      (log' ++ [(anchorAt anchorInfo idx, cell)]) values values' := by
  have hanchor : Fills abi desc (argArea abi desc idx (start + ts.length)) (start + ts.length) []
      log' (log' ++ [(anchorAt anchorInfo idx, cell)]) values' values' :=
    ⟨⟨_, rfl, fun w hw => by rw [mem_singleton.mp hw]; exact ⟨Or.inl rfl, hsmall⟩⟩, nofun,
      fun _ _ => rfl⟩
  have hboth := h.trans hanchor fun x hx s hs => argArea_apart hdesc hidx hx hs
  rw [append_nil] at hboth
  refine hboth.mono fun x hx => ?_
  rcases hx with hx | hx
  · exact hx
  · exact argArea_mono (Nat.le_add_right _ _) hx

/-- After a step over an input, or part of one, `ts` are in slots. -/
structure InputStep (abi : GeSizes) (idx : Nat) (ts : List Tensor) (h h' : Holder) : Prop where
  fills : Fills abi h.compileDesc (argArea abi h.compileDesc idx h.inputNum) h.inputNum ts
    h.written h'.written h.opInArg h'.opInArg
  state : h' = { h with
    written := h'.written
    opInArg := h'.opInArg
    inputNum := h.inputNum + ts.length }
  bound : h.inputNum ≤ maxOpArgNum → h'.inputNum ≤ maxOpArgNum

theorem InputStep.inputNum (hstep : InputStep abi idx ts h h') :
    h'.inputNum = h.inputNum + ts.length := by
  rw [hstep.state]

theorem InputStep.compileDesc (hstep : InputStep abi idx ts h h') :
    h'.compileDesc = h.compileDesc := by
  rw [hstep.state]

theorem InputStep.trans {h'' : Holder} (hdesc : h.compileDesc = anchorInfo + anchorInstanceInfo * n)
    (hidx : idx < n) (hstep : InputStep abi idx ts h h') (hstep' : InputStep abi idx ts' h' h'') :
    InputStep abi idx (ts ++ ts') h h'' := by
  have hfills := hstep'.fills
  rw [hstep.compileDesc, hstep.inputNum] at hfills
  refine ⟨?_, ?_, fun hle => hstep'.bound (hstep.bound hle)⟩
  · refine (hstep.fills.trans hfills fun x hx s hs => argArea_apart hdesc hidx hx hs).mono ?_
    intro x hx
    rcases hx with hx | hx
    · exact hx
    · exact argArea_mono (Nat.le_add_right _ _) hx
  · rw [hstep'.state, hstep.state, length_append, Nat.add_assoc]

theorem fills_setSlot (h : Holder) (slot : Nat) (t : Tensor)
    (harea : area (descAt abi h.compileDesc slot)) :
    Fills abi h.compileDesc area slot [t] h.written (h.setSlot abi slot t).written h.opInArg
      (h.setSlot abi slot t).opInArg := by
  refine ⟨⟨_, rfl, fun w hw => by
    rw [mem_singleton.mp hw]
    exact ⟨harea, trivial⟩⟩, ?_, ?_⟩
  · intro k u hk
    cases k with
    | zero =>
      cases hk
      exact ⟨stands_snoc _ _ _, Function.update_self _ _ _⟩
    | succ k => cases hk
  · intro s hs
    exact Function.update_of_ne (Nat.ne_of_lt hs) _ _

section

variable (hdesc : h.compileDesc = anchorInfo + anchorInstanceInfo * n)
include hdesc

/-- One tensor fills its slot, and its anchor says so. -/
theorem inputStep_tensor (hidx : idx < n) (tensor : Option Tensor)
    (hok : h.updateInputTensor abi idx tensor = (.success, h')) :
    InputStep abi idx tensor.toList h h' ∧ Stands h'.written (anchorAt anchorInfo idx)
        (.anchor h.inputNum.toUInt32 tensor.toList.length.toUInt32) := by
  have hanchor : ∀ num, Fills abi h.compileDesc (argArea abi h.compileDesc idx h.inputNum)
      h.inputNum [] h.written (h.setAnchor anchorInfo idx h.inputNum num).written h.opInArg
      h.opInArg :=
    fun num => Fills.refl.setAnchor hdesc hidx trivial
  cases tensor with
  | none =>
    cases hok
    exact ⟨⟨hanchor 0, rfl, id⟩, stands_snoc _ _ _⟩
  | some t =>
    unfold Holder.updateInputTensor at hok
    dsimp only at hok
    split at hok
    next => cases hok
    next hlt =>
      cases hok
      have hslot := fills_setSlot (h.setAnchor anchorInfo idx h.inputNum 1) h.inputNum t
        (show argArea abi h.compileDesc idx h.inputNum _ from Or.inr ⟨_, Nat.le_refl _, rfl⟩)
      have hboth := (hanchor 1).trans hslot fun x hx s hs => argArea_apart hdesc hidx hx hs
      refine ⟨⟨hboth.mono fun x hx => hx.elim id id, rfl, fun _ => Nat.not_le.mp hlt⟩, ?_⟩
      -- the anchor stands, since the slot is written elsewhere
      refine (stands_snoc h.written _ _).append fun w hw => ?_
      rw [mem_singleton.mp hw]
      refine Extent.Apart.symm ?_
      rw [show (h.setAnchor anchorInfo idx h.inputNum 1).compileDesc = h.compileDesc from rfl,
        hdesc]
      exact anchorAt_apart_descAt hidx

theorem inputStep_tensors (hidx : idx < n)
    (hok : h.updateInputTensors abi idx tensors = (.success, h')) :
    InputStep abi idx (tensors.flatMap Option.toList) h h' := by
  induction tensors generalizing h with
  | nil =>
    cases hok
    exact ⟨.refl, rfl, id⟩
  | cons t tensors ih =>
    unfold Holder.updateInputTensors at hok
    split at hok
    next h₁ htensor =>
      have hfirst := (inputStep_tensor hdesc hidx t htensor).1
      have hrest := ih (by rw [hfirst.compileDesc, hdesc]) hok
      exact hfirst.trans hdesc hidx hrest
    next => cases hok

/-- One input fills the slots of its tensors, and its anchor says so. -/
theorem inputStep_arg
    (hidx : idx < n) {arg : OpArg} (hok : h.updateInputArg abi idx arg = (.success, h')) :
    InputStep abi idx arg.tensors h h' ∧ Stands h'.written (anchorAt anchorInfo idx)
        (.anchor h.inputNum.toUInt32 arg.tensors.length.toUInt32) := by
  cases arg with
  | aclTensor tensor => exact inputStep_tensor hdesc hidx tensor hok
  | aclTensorList tensorList =>
    match tensorList with
    | none => exact inputStep_tensor hdesc hidx none hok
    | some [] => exact inputStep_tensor hdesc hidx none hok
    | some (t :: tensors) =>
      unfold Holder.updateInputArg Holder.updateInputList at hok
      dsimp only at hok
      split at hok
      next h₁ hloop =>
        cases hok
        have hstep := inputStep_tensors hdesc hidx hloop
        have hlen : h₁.inputNum - h.inputNum =
            (OpArg.aclTensorList (some (t :: tensors))).tensors.length := by
          rw [hstep.inputNum, Nat.add_sub_cancel_left]
          rfl
        rw [hlen]
        refine ⟨⟨hstep.fills.setAnchor hdesc hidx trivial, ?_, hstep.bound⟩, stands_snoc _ _ _⟩
        conv => lhs; rw [hstep.state]
        rfl
      next => cases hok
  | dataType _ | int _ | float _ | double _ | string _ | aclScalar _ | intList _ | floatList _
  | boolList _ | other => cases hok

end

theorem startOf_succ (arg : OpArg) (args : List OpArg) (i : Nat) :
    startOf (arg :: args) (i + 1) = arg.tensors.length + startOf args i := by
  unfold startOf tensorsOf
  rw [take_succ_cons, flatMap_cons, length_append]

/-- Where the inputs from `idx` on write. -/
def inputsArea (abi : GeSizes) (desc n idx start : Nat) (x : Extent) : Prop :=
  ∃ j, idx ≤ j ∧ j < n ∧ argArea abi desc j start x

/-- The inputs from `idx` on are in the context. -/
structure InputsDone (abi : GeSizes) (n idx : Nat) (args : List OpArg) (h h' : Holder) : Prop where
  fills : Fills abi h.compileDesc (inputsArea abi h.compileDesc n idx h.inputNum) h.inputNum
    (tensorsOf args) h.written h'.written h.opInArg h'.opInArg
  anchors : ∀ i arg, args[i]? = some arg → Stands h'.written (anchorAt anchorInfo (idx + i))
    (.anchor (h.inputNum + startOf args i).toUInt32 arg.tensors.length.toUInt32)
  state : h' = { h with
    written := h'.written
    opInArg := h'.opInArg
    inputNum := h.inputNum + (tensorsOf args).length }
  bound : h.inputNum ≤ maxOpArgNum → h'.inputNum ≤ maxOpArgNum

/-- By induction on the inputs: every slot and every anchor stands. -/
theorem inputs_done (hdesc : h.compileDesc = anchorInfo + anchorInstanceInfo * n)
    (hn : idx + args.length ≤ n)
    (hok : visitBy (Holder.updateInputArg abi) idx args h = (.success, h')) :
    InputsDone abi n idx args h h' := by
  induction args generalizing h idx with
  | nil =>
    cases hok
    exact ⟨.refl, nofun, rfl, id⟩
  | cons arg args ih =>
    rw [length_cons] at hn
    have hidx : idx < n := by omega
    unfold visitBy at hok
    split at hok
    next h₁ harg =>
      obtain ⟨hstep, hanchor⟩ := inputStep_arg hdesc hidx harg
      have hrest := ih (by rw [hstep.compileDesc, hdesc]) (by omega) hok
      have hfills := hrest.fills
      rw [hstep.compileDesc, hstep.inputNum] at hfills
      refine ⟨?_, ?_, ?_, fun hle => hrest.bound (hstep.bound hle)⟩
      · -- the slots of the first argument and those of the others
        refine (hstep.fills.trans hfills ?_).mono ?_
        · intro x ⟨j, _, hj, hx⟩ s hs
          exact argArea_apart hdesc hj hx hs
        · rintro x (hx | ⟨j, hle, hj, hx⟩)
          · exact ⟨idx, Nat.le_refl _, hidx, hx⟩
          · exact ⟨j, by omega, hj, argArea_mono (Nat.le_add_right _ _) hx⟩
      · -- the first anchor stands, since the others are written elsewhere
        intro i a ha
        cases i with
        | zero =>
          cases ha
          refine hfills.stands hanchor fun y ⟨j, hle, _, hy⟩ => ?_
          rcases hy with rfl | ⟨s, _, rfl⟩
          · exact anchorAt_apart (by omega)
          · rw [hdesc]
            exact (anchorAt_apart_descAt hidx).symm
        | succ i =>
          have hlater := hrest.anchors i a ha
          rw [hstep.inputNum, Nat.add_assoc h.inputNum, ← startOf_succ,
            Nat.add_right_comm] at hlater
          exact hlater
      · rw [hrest.state, hstep.state]
        unfold tensorsOf
        rw [flatMap_cons, length_append, Nat.add_assoc]
    next => cases hok

/-! ## Outputs -/

/-- Slots from `start` on. -/
def slotArea (abi : GeSizes) (desc start : Nat) (x : Extent) : Prop :=
  ∃ s, start ≤ s ∧ x = descAt abi desc s

theorem slotArea_apart (hx : slotArea abi desc start x) {s : Nat} (hs : s < start) :
    x.Apart (descAt abi desc s) := by
  obtain ⟨s', hs', rfl⟩ := hx
  exact descAt_apart (by omega)

/-- After a step over outputs `ts` are in the slots behind those used before. -/
structure OutputStep (abi : GeSizes) (ts : List Tensor) (h h' : Holder) : Prop where
  fills : Fills abi h.compileDesc (slotArea abi h.compileDesc (h.inputNum + h.outputNum))
    (h.inputNum + h.outputNum) ts h.written h'.written h.opInArg h'.opInArg
  state : h' = { h with
    written := h'.written
    opInArg := h'.opInArg
    outputNum := h.outputNum + ts.length }
  bound : h.inputNum + h.outputNum ≤ maxOpArgNum → h'.inputNum + h'.outputNum ≤ maxOpArgNum

theorem OutputStep.trans {h'' : Holder} (hstep : OutputStep abi ts h h')
    (hstep' : OutputStep abi ts' h' h'') : OutputStep abi (ts ++ ts') h h'' := by
  have hfills := hstep'.fills
  have hdesc : h'.compileDesc = h.compileDesc := by rw [hstep.state]
  have hstart : h'.inputNum + h'.outputNum = h.inputNum + h.outputNum + ts.length := by
    rw [hstep.state, Nat.add_assoc]
  rw [hdesc, hstart] at hfills
  refine ⟨?_, ?_, fun hle => hstep'.bound (hstep.bound hle)⟩
  · refine (hstep.fills.trans hfills fun x hx s hs => slotArea_apart hx hs).mono ?_
    rintro x (hx | ⟨s, hs, rfl⟩)
    · exact hx
    · exact ⟨s, by omega, rfl⟩
  · rw [hstep'.state, hstep.state, length_append, Nat.add_assoc]

theorem outputStep_tensor {tensor : Option Tensor}
    (hok : h.updateOutputTensor abi tensor = (.success, h')) :
    OutputStep abi tensor.toList h h' := by
  cases tensor with
  | none =>
    cases hok
    exact ⟨.refl, rfl, id⟩
  | some t =>
    unfold Holder.updateOutputTensor at hok
    dsimp only at hok
    split at hok
    next => cases hok
    next hlt =>
      cases hok
      exact ⟨fills_setSlot h _ t ⟨_, Nat.le_refl _, rfl⟩, rfl, fun _ => Nat.not_le.mp hlt⟩

theorem outputStep_list (hok : h.updateOutputList abi tensors = (.success, h')) :
    OutputStep abi (tensors.flatMap Option.toList) h h' := by
  induction tensors generalizing h with
  | nil =>
    cases hok
    exact ⟨.refl, rfl, id⟩
  | cons t tensors ih =>
    unfold Holder.updateOutputList at hok
    split at hok
    next h₁ htensor => exact (outputStep_tensor htensor).trans (ih hok)
    next => cases hok

/-- An argument that is refused, whatever its tensors, is no output. -/
def OpArg.IsTensors : OpArg → Prop
  | aclTensor _ | aclTensorList _ => True
  | _ => False

theorem outputStep_arg {arg : OpArg} (hok : h.updateOutputArg abi idx arg = (.success, h')) :
    OutputStep abi arg.tensors h h' ∧ arg.IsTensors := by
  cases arg with
  | aclTensor tensor => exact ⟨outputStep_tensor hok, trivial⟩
  | aclTensorList tensorList => exact ⟨outputStep_list hok, trivial⟩
  | dataType _ | int _ | float _ | double _ | string _ | aclScalar _ | intList _ | floatList _
  | boolList _ | other => cases hok

theorem outputs_done (hok : visitBy (Holder.updateOutputArg abi) idx args h = (.success, h')) :
    OutputStep abi (tensorsOf args) h h' ∧ ∀ arg ∈ args, arg.IsTensors := by
  induction args generalizing h idx with
  | nil =>
    cases hok
    exact ⟨⟨.refl, rfl, id⟩, nofun⟩
  | cons arg args ih =>
    unfold visitBy at hok
    split at hok
    next h₁ harg =>
      obtain ⟨hstep, htensors⟩ := outputStep_arg harg
      obtain ⟨hrest, hall⟩ := ih hok
      exact ⟨hstep.trans hrest, forall_mem_cons.mpr ⟨htensors, hall⟩⟩
    next => cases hok

end OpBase.ContextHolder
