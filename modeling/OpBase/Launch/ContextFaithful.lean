import OpBase.Launch.ContextAttrs

/-!
# The kernel context describes its arguments

The parts of the buffer lie one behind the other, and within a part nothing is written twice but
the anchor of a list, which comes last. So what a reader finds at each place is what was written
there last, by this call, whatever the buffer held before.

> `context_faithful`: after a call that succeeds, anchors, descriptors, values and attributes
> are those of the arguments if and only if every attribute was copied; arrays of more than
> `0x7fffffff` bytes are not, and the call goes on.
-/

namespace OpBase.ContextHolder

open List OpBase.Lib OpBase.Lib.WriteLog OpBase.Lib.Extent
open Holder (finalize finish updateComputeNodeInfo updateInputArg updateOutputArg)

variable {abi : GeSizes} {idx n : Nat} {h h' : Holder} {arg : OpArg}

/-! ## The whole call -/

variable {call : Call} {args : List OpArg}

theorem update_success (hok : h.updateComputeNodeInfo abi call = (.success, h')) :
    ∃ h₁ h₂ p h₄, visitBy (updateInputArg abi) 0 call.input (h.reset call) = (.success, h₁) ∧
      visitBy (updateOutputArg abi) 0 call.output h₁ = (.success, h₂) ∧
      visitBy (updateAttrArg abi) 0 call.attr ((h₂.finalize abi call.attr.length).attrDataStart,
        h₂.finalize abi call.attr.length) = (.success, (p, h₄)) ∧
      h' = h₄.finish p call.output := by
  unfold updateComputeNodeInfo at hok
  split at hok
  next => cases hok
  next h₁ hinputs =>
    split at hok
    next => cases hok
    next h₂ houtputs =>
      dsimp only at hok
      split at hok
      next => cases hok
      next p h₄ hattrs =>
        cases hok
        exact ⟨h₁, h₂, p, h₄, hinputs, houtputs, hattrs, rfl⟩

theorem toNat_toUInt32 {n : Nat} (h : n ≤ maxOpArgNum) : n.toUInt32.toNat = n :=
  Nat.mod_eq_of_lt (Nat.lt_of_le_of_lt h (by decide))

theorem startOf_add_le {i : Nat} (ha : args[i]? = some arg) :
    startOf args i + arg.tensors.length ≤ (tensorsOf args).length := by
  induction args generalizing i with
  | nil => cases ha
  | cons a args ih =>
    unfold tensorsOf
    rw [flatMap_cons, length_append]
    cases i with
    | zero =>
      cases ha
      rw [show startOf (arg :: args) 0 = 0 from rfl, Nat.zero_add]
      exact Nat.le_add_right _ _
    | succ i =>
      rw [startOf_succ, Nat.add_assoc]
      exact Nat.add_le_add_left (ih ha) _

theorem getElem?_tensorsOf {i k : Nat} {t : Tensor} (ha : args[i]? = some arg)
    (hk : arg.tensors[k]? = some t) : (tensorsOf args)[startOf args i + k]? = some t := by
  induction args generalizing i with
  | nil => cases ha
  | cons a args ih =>
    unfold tensorsOf
    rw [flatMap_cons]
    cases i with
    | zero =>
      cases ha
      have hlt : k < arg.tensors.length := (List.getElem?_eq_some_iff.mp hk).1
      rw [show startOf (arg :: args) 0 + k = k from Nat.zero_add k, getElem?_append_left hlt]
      exact hk
    | succ i =>
      rw [startOf_succ, Nat.add_assoc, getElem?_append_right (Nat.le_add_right _ _),
        Nat.add_sub_cancel_left]
      exact ih ha

/-- What is behind the descriptors, written after them. -/
structure Behind (abi : GeSizes) (call : Call) (h h' : Holder) : Prop where
  state : h' = { h with
    written := h'.written
    inputsNum := h.inputNum
    outputsNum := h.outputNum
    attrSize := h'.attrSize
    attrDef := h.compileDesc + abi.compileTimeTensorDesc * (h.inputNum + h.outputNum)
    attrDataStart := h'.attrDataStart
    outputAnchorInfo := h'.outputAnchorInfo }
  later : ∃ ws, h'.written = h.written ++ ws ∧ ∀ w ∈ ws, h'.attrDef ≤ w.1.start ∧ w.2.Small
  attrNum : Stands h'.written ⟨h'.attrDef, 8⟩ (.number call.attr.length)
  attrs : ∀ k arg, call.attr[k]? = some arg → arg.Copied abi → h'.HasAttr abi k arg
  anchors : ∀ i arg, call.output[i]? = some arg →
    Stands h'.written (anchorAt (h'.attrDef + h'.attrSize) i)
      (.anchor (startOf call.output i).toUInt32 arg.tensors.length.toUInt32)

/-- After a success the attributes and anchors stand behind the tensors. -/
theorem behind_of_success {p : Nat} {h₄ : Holder}
    (hattrs : visitBy (updateAttrArg abi) 0 call.attr
      ((h.finalize abi call.attr.length).attrDataStart, h.finalize abi call.attr.length) =
        (.success, (p, h₄)))
    (htensors : ∀ arg ∈ call.output, arg.IsTensors) :
    Behind abi call h (h₄.finish p call.output) := by
  have hstart : (h.finalize abi call.attr.length).attrDef + runtimeAttrsDef +
      8 * call.attr.length ≤ (h.finalize abi call.attr.length).attrDataStart := Nat.le_refl _
  obtain ⟨hle, hadds, hstands⟩ := attrs_done hstart (Nat.le_of_eq (Nat.zero_add _)) hattrs
  obtain ⟨hanchors, hanchor⟩ := outputAnchors_done htensors 0 0
    { h₄ with attrSize := p - h₄.attrDef, outputAnchorInfo := p }
  have htable : (h.finalize abi call.attr.length).attrDef + runtimeAttrsDef +
      8 * call.attr.length ≤ p := hle
  have hp : h₄.attrDef + (p - h₄.attrDef) = p := by
    rw [hadds.attrDef]
    omega
  -- the anchors lie behind all of this
  have hfront : ∀ {x v}, Stands h₄.written x v → x.stop ≤ p →
      Stands (h₄.finish p call.output).written x v := by
    intro x v hx hstop
    refine hanchors.stands hx fun y ⟨j, _, hy⟩ => ?_
    rw [hy]
    right
    unfold anchorAt
    dsimp only
    omega
  have hdef : (h₄.finish p call.output).attrDef = (h.finalize abi call.attr.length).attrDef :=
    hanchors.attrDef.trans hadds.attrDef
  have hsize : (h₄.finish p call.output).attrSize = p - h₄.attrDef := by
    obtain ⟨ws, hws, -⟩ := hanchors
    unfold finish
    rw [hws]
  refine ⟨?_, ?_, ?_, ?_, ?_⟩
  · obtain ⟨ws, hws, -⟩ := hadds
    obtain ⟨ws', hws', -⟩ := hanchors
    unfold finish
    rw [hws', hws]
    rfl
  · obtain ⟨ws, hws, hw⟩ := hadds
    obtain ⟨ws', hws', hw'⟩ := hanchors
    refine ⟨(⟨(h.finalize abi call.attr.length).attrDef, 8⟩, .number call.attr.length) ::
      (ws ++ ws'), ?_, fun w hmem => ?_⟩
    · unfold finish
      rw [hws', hws]
      show h.written ++ _ ++ ws ++ ws' = _
      rw [append_assoc, append_assoc]
      rfl
    · rw [hdef]
      rcases mem_cons.mp hmem with rfl | hmem
      · exact ⟨Nat.le_refl _, trivial⟩
      · rcases mem_append.mp hmem with hmem | hmem
        · refine ⟨?_, (hw w hmem).2⟩
          rcases (hw w hmem).1 with ⟨j, _, _, hx⟩ | ⟨hlo, -⟩
          · rw [hx]
            unfold offsetAt
            dsimp only
            omega
          · omega
        · obtain ⟨⟨j, _, hx⟩, hsmall⟩ := hw' w hmem
          refine ⟨?_, hsmall⟩
          rw [hx]
          unfold anchorAt
          dsimp only
          omega
  · rw [hdef]
    refine hfront (hadds.stands (stands_snoc _ _ _) fun y hy => ?_) ?_
    · right
      unfold Extent.stop
      dsimp only
      rcases hy with ⟨j, _, _, rfl⟩ | ⟨hlo, -⟩
      · unfold offsetAt runtimeAttrsDef
        dsimp only
        omega
      · unfold runtimeAttrsDef at hstart
        omega
    · unfold Extent.stop
      unfold runtimeAttrsDef at htable
      dsimp only
      omega
  · intro k arg ha hcopied
    have hk : k < call.attr.length := (List.getElem?_eq_some_iff.mp ha).1
    obtain ⟨off, -, hoff, hcells⟩ := hstands k arg ha hcopied
    rw [Nat.zero_add] at hoff
    unfold Holder.HasAttr
    rw [hdef]
    refine ⟨off, hfront hoff ?_, fun c hc => hfront (hcells c hc).2 (hcells c hc).1⟩
    unfold offsetAt Extent.stop
    dsimp only
    omega
  · intro i arg ha
    have hstands' := hanchor i arg ha
    rw [Nat.zero_add, Nat.zero_add] at hstands'
    rw [hdef, hsize, ← hadds.attrDef, hp]
    exact hstands'

theorem Behind.stands (hbehind : Behind abi call h h') {x : Extent} {v : Cell}
    (hx : Stands h.written x v) (hstop : x.stop ≤ h'.attrDef) : Stands h'.written x v := by
  obtain ⟨ws, hws, hw⟩ := hbehind.later
  rw [hws]
  exact hx.append fun w hmem => Or.inr (hstop.trans (hw w hmem).1)

/-- The state of a call that succeeds when inputs and outputs are in their slots. -/
structure Slotted (abi : GeSizes) (call : Call) (h h₂ : Holder) : Prop where
  state : h₂ = { h.reset call with
    written := h₂.written
    opInArg := h₂.opInArg
    inputNum := (tensorsOf call.input).length
    outputNum := (tensorsOf call.output).length }
  bound : (tensorsOf call.input).length + (tensorsOf call.output).length ≤ maxOpArgNum
  written : ∃ ws, h₂.written = h.written ++ ws ∧ ∀ w ∈ ws, w.2.Small
  anchors : ∀ i arg, call.input[i]? = some arg → Stands h₂.written (anchorAt anchorInfo i)
    (.anchor (startOf call.input i).toUInt32 arg.tensors.length.toUInt32)
  slots : ∀ s t, (tensorsOf call.input ++ tensorsOf call.output)[s]? = some t →
    Stands h₂.written (descAt abi (anchorInfo + anchorInstanceInfo * call.input.length) s) t.cell ∧
      h₂.opInArg s = t.tensor

/-- After a success every tensor stands in its slot. -/
theorem slotted_of_success {h₁ h₂ : Holder}
    (hinputs : visitBy (updateInputArg abi) 0 call.input (h.reset call) = (.success, h₁))
    (houtputs : visitBy (updateOutputArg abi) 0 call.output h₁ = (.success, h₂)) :
    Slotted abi call h h₂ ∧ ∀ arg ∈ call.output, arg.IsTensors := by
  have hin := inputs_done (n := call.input.length) rfl (Nat.le_of_eq (Nat.zero_add _)) hinputs
  obtain ⟨hout, htensors⟩ := outputs_done houtputs
  have hdesc : h₁.compileDesc = anchorInfo + anchorInstanceInfo * call.input.length := by
    rw [hin.state]
    rfl
  have hnum : h₁.inputNum + h₁.outputNum = 0 + (tensorsOf call.input).length := by
    rw [hin.state]
    rfl
  have hfills := hout.fills
  rw [hdesc, hnum] at hfills
  -- the slots of the outputs lie behind those of the inputs
  have hboth := hin.fills.trans hfills fun x hx s hs => slotArea_apart hx hs
  refine ⟨⟨?_, ?_, ?_, fun i arg ha => ?_, fun s t hs => ?_⟩, htensors⟩
  · rw [hout.state, hin.state]
    show _ = _
    congr 1
    · exact Nat.zero_add _
    · exact Nat.zero_add _
  · have hfirst : h₁.inputNum ≤ maxOpArgNum := hin.bound (Nat.zero_le _)
    have hinputNum : h₁.inputNum = 0 + (tensorsOf call.input).length := by
      rw [hin.state]
      rfl
    have hall : h₂.inputNum + h₂.outputNum =
        (tensorsOf call.input).length + (tensorsOf call.output).length := by
      rw [hout.state, hin.state]
      show 0 + _ + (0 + _) = _
      rw [Nat.zero_add, Nat.zero_add]
    rw [← hall]
    exact hout.bound (by omega)
  · obtain ⟨ws, hws, hw⟩ := hboth.written
    exact ⟨ws, hws, fun w hmem => (hw w hmem).2⟩
  · have hanchor := hin.anchors i arg ha
    rw [Nat.zero_add] at hanchor
    refine hfills.stands ?_ fun y ⟨s, _, hy⟩ => ?_
    · exact (Nat.zero_add (startOf call.input i)) ▸ hanchor
    · rw [hy]
      exact (anchorAt_apart_descAt (List.getElem?_eq_some_iff.mp ha).1).symm
  · have hslot := hboth.slots s t hs
    rw [show (h.reset call).inputNum + s = s from Nat.zero_add s] at hslot
    exact hslot

/-- What a call that succeeds leaves behind: all but the attributes, and those that are
copied. -/
theorem context_laid (hok : h.updateComputeNodeInfo abi call = (.success, h')) :
    (∀ k arg, call.attr[k]? = some arg → arg.Copied abi → h'.HasAttr abi k arg) ∧
    ((∀ k arg, call.attr[k]? = some arg → h'.HasAttr abi k arg) → Faithful abi call h') ∧
    ∃ ws, h'.written = h.written ++ ws ∧ ∀ w ∈ ws, w.2.Small := by
  obtain ⟨h₁, h₂, p, h₄, hinputs, houtputs, hattrs, rfl⟩ := update_success hok
  obtain ⟨hslotted, htensors⟩ := slotted_of_success hinputs houtputs
  have hbehind := behind_of_success hattrs htensors
  generalize h₄.finish p call.output = h' at hbehind
  have hbound := hslotted.bound
  have hir : h'.irInputsNum = call.input.length := by
    rw [hbehind.state, hslotted.state]
    rfl
  have hin : h'.inputsNum = (tensorsOf call.input).length := by
    rw [hbehind.state, hslotted.state]
  have hout : h'.outputsNum = (tensorsOf call.output).length := by
    rw [hbehind.state, hslotted.state]
  have hdef : h'.attrDef = anchorInfo + anchorInstanceInfo * call.input.length +
      abi.compileTimeTensorDesc *
        ((tensorsOf call.input).length + (tensorsOf call.output).length) := by
    rw [hbehind.state, hslotted.state]
    rfl
  have hslot : ∀ s t, (tensorsOf call.input ++ tensorsOf call.output)[s]? = some t →
      h'.HasSlot abi s t := by
    intro s t hs
    obtain ⟨hstands, hvalue⟩ := hslotted.slots s t hs
    have hlt := (List.getElem?_eq_some_iff.mp hs).1
    rw [length_append] at hlt
    unfold Holder.HasSlot
    rw [hir]
    refine ⟨hbehind.stands hstands ?_, ?_⟩
    · have hle := Nat.mul_le_mul_left abi.compileTimeTensorDesc hlt
      have hused := abi.descUsed_le
      rw [Nat.mul_succ] at hle
      rw [hdef]
      unfold descAt Extent.stop
      dsimp only
      omega
    · rw [hbehind.state]
      exact hvalue
  -- the counts fit into the 32 bits of an anchor
  have hanchor : ∀ {args : List OpArg} {base i : Nat} {arg : OpArg},
      (tensorsOf args).length ≤ maxOpArgNum → args[i]? = some arg →
      Stands h'.written (anchorAt base i)
        (.anchor (startOf args i).toUInt32 arg.tensors.length.toUInt32) →
      ∃ start num : UInt32, Stands h'.written (anchorAt base i) (.anchor start num) ∧
        start.toNat = startOf args i ∧ num.toNat = arg.tensors.length := by
    intro args base i arg hle ha hstands
    have hsum := startOf_add_le ha
    exact ⟨_, _, hstands, toNat_toUInt32 (by omega), toNat_toUInt32 (by omega)⟩
  refine ⟨hbehind.attrs, fun hhas => ?_, ?_⟩
  · refine
      { opType := ?_, irNums := ⟨hir, ?_⟩, inputsNum := hin, outputsNum := hout, attrDef := ?_
        inputAnchor := fun i arg ha => ?_, outputAnchor := fun i arg ha => ?_
        inputSlot := fun i arg k t ha ht => ?_, outputSlot := fun i arg k t ha ht => ?_
        attrNum := hbehind.attrNum, attrs := hhas }
    · rw [hbehind.state, hslotted.state]
      exact ⟨rfl, rfl⟩
    · rw [hbehind.state, hslotted.state]
      rfl
    · rw [hir, hin, hout, hdef]
    · refine hanchor (by omega) ha (hbehind.stands (hslotted.anchors i arg ha) ?_)
      have hlt := (List.getElem?_eq_some_iff.mp ha).1
      rw [hdef]
      unfold anchorAt anchorInstanceInfo Extent.stop
      dsimp only
      omega
    · exact hanchor (by omega) ha (hbehind.anchors i arg ha)
    · refine hslot _ t ?_
      have hget := getElem?_tensorsOf ha ht
      rw [getElem?_append_left (List.getElem?_eq_some_iff.mp hget).1]
      exact hget
    · refine hslot _ t ?_
      rw [hin, getElem?_append_right (Nat.le_add_right _ _), Nat.add_sub_cancel_left]
      exact getElem?_tensorsOf ha ht
  · obtain ⟨ws, hws, hw⟩ := hslotted.written
    obtain ⟨ws', hws', hw'⟩ := hbehind.later
    refine ⟨ws ++ ws', by rw [hws', hws, append_assoc], fun w hmem => ?_⟩
    rcases mem_append.mp hmem with hmem | hmem
    · exact hw w hmem
    · exact (hw' w hmem).2

/-! ## What the holder was used for before does not matter -/

/-- The same status, and states that are related. -/
def SameStatus {σ : Type} (related : σ → σ → Prop) (r r' : Status × σ) : Prop :=
  r.1 = r'.1 ∧ related r.2 r'.2

theorem visitBy_sameStatus {σ : Type} {related : σ → σ → Prop} {func : Nat → OpArg → σ → Status × σ}
    (hfunc : ∀ idx arg s s', related s s' → SameStatus related (func idx arg s) (func idx arg s')) :
    ∀ (args : List OpArg) (idx : Nat) {s s' : σ}, related s s' →
      SameStatus related (visitBy func idx args s) (visitBy func idx args s')
  | [], _, _, _, hs => ⟨rfl, hs⟩
  | arg :: args, idx, s, s', hs => by
    obtain ⟨hstatus, hrelated⟩ := hfunc idx arg s s' hs
    unfold visitBy
    rcases hr : func idx arg s with ⟨status, s₁⟩
    rcases hr' : func idx arg s' with ⟨status', s₁'⟩
    rw [hr, hr'] at hstatus hrelated
    cases hstatus
    cases status with
    | success => exact visitBy_sameStatus hfunc args (idx + 1) hrelated
    | errInner => exact ⟨rfl, hrelated⟩

/-- Two states that differ in what was written before. -/
structure Alike (h k : Holder) : Prop where
  inputNum : h.inputNum = k.inputNum
  outputNum : h.outputNum = k.outputNum
  compileDesc : h.compileDesc = k.compileDesc

variable {k : Holder}

/-- In the attributes, what counts is where the next one goes. -/
def AlikeAttr (s s' : Nat × Holder) : Prop :=
  s.1 = s'.1 ∧ s.2.attrDataStart = s'.2.attrDataStart

section

variable (abi : GeSizes)

theorem alike_inputTensor (idx : Nat) (hk : Alike h k) (tensor : Option Tensor) :
    SameStatus Alike (h.updateInputTensor abi idx tensor) (k.updateInputTensor abi idx tensor) := by
  cases tensor with
  | none => exact ⟨rfl, ⟨hk.inputNum, hk.outputNum, hk.compileDesc⟩⟩
  | some t =>
    unfold Holder.updateInputTensor
    dsimp only
    rw [hk.inputNum]
    split
    next => exact ⟨rfl, hk⟩
    next => exact ⟨rfl, ⟨congrArg (· + 1) hk.inputNum, hk.outputNum, hk.compileDesc⟩⟩

theorem alike_inputTensors (idx : Nat) (tensors : List (Option Tensor)) :
    ∀ {h k : Holder}, Alike h k →
    SameStatus Alike (h.updateInputTensors abi idx tensors)
      (k.updateInputTensors abi idx tensors) := by
  induction tensors with
  | nil => exact fun hk => ⟨rfl, hk⟩
  | cons t tensors ih =>
    intro h k hk
    obtain ⟨hstatus, halike⟩ := alike_inputTensor abi idx hk t
    unfold Holder.updateInputTensors
    rcases hr : h.updateInputTensor abi idx t with ⟨status, h₁⟩
    rcases hr' : k.updateInputTensor abi idx t with ⟨status', k₁⟩
    rw [hr, hr'] at hstatus halike
    cases hstatus
    cases status with
    | success => exact ih halike
    | errInner => exact ⟨rfl, halike⟩

theorem alike_inputArg (idx : Nat) (arg : OpArg) (h k : Holder) (hk : Alike h k) :
    SameStatus Alike (h.updateInputArg abi idx arg) (k.updateInputArg abi idx arg) := by
  cases arg with
  | aclTensor tensor => exact alike_inputTensor abi idx hk tensor
  | aclTensorList tensorList =>
    match tensorList with
    | none => exact alike_inputTensor abi idx hk none
    | some [] => exact alike_inputTensor abi idx hk none
    | some (t :: tensors) =>
      obtain ⟨hstatus, halike⟩ := alike_inputTensors abi idx (t :: tensors) hk
      unfold updateInputArg Holder.updateInputList
      dsimp only
      rcases hr : h.updateInputTensors abi idx (t :: tensors) with ⟨status, h₁⟩
      rcases hr' : k.updateInputTensors abi idx (t :: tensors) with ⟨status', k₁⟩
      rw [hr, hr'] at hstatus halike
      cases hstatus
      cases status with
      | success => exact ⟨rfl, ⟨halike.inputNum, halike.outputNum, halike.compileDesc⟩⟩
      | errInner => exact ⟨rfl, halike⟩
  | dataType _ | int _ | float _ | double _ | string _ | aclScalar _ | intList _ | floatList _
  | boolList _ | other => exact ⟨rfl, hk⟩

theorem alike_outputTensor (hk : Alike h k) (tensor : Option Tensor) :
    SameStatus Alike (h.updateOutputTensor abi tensor) (k.updateOutputTensor abi tensor) := by
  cases tensor with
  | none => exact ⟨rfl, hk⟩
  | some t =>
    unfold Holder.updateOutputTensor
    dsimp only
    rw [hk.inputNum, hk.outputNum]
    split
    next => exact ⟨rfl, hk⟩
    next => exact ⟨rfl, ⟨hk.inputNum, congrArg (· + 1) hk.outputNum, hk.compileDesc⟩⟩

theorem alike_outputList (tensors : List (Option Tensor)) :
    ∀ {h k : Holder}, Alike h k →
    SameStatus Alike (h.updateOutputList abi tensors) (k.updateOutputList abi tensors) := by
  induction tensors with
  | nil => exact fun hk => ⟨rfl, hk⟩
  | cons t tensors ih =>
    intro h k hk
    obtain ⟨hstatus, halike⟩ := alike_outputTensor abi hk t
    unfold Holder.updateOutputList
    rcases hr : h.updateOutputTensor abi t with ⟨status, h₁⟩
    rcases hr' : k.updateOutputTensor abi t with ⟨status', k₁⟩
    rw [hr, hr'] at hstatus halike
    cases hstatus
    cases status with
    | success => exact ih halike
    | errInner => exact ⟨rfl, halike⟩

theorem alike_outputArg (idx : Nat) (arg : OpArg) (h k : Holder) (hk : Alike h k) :
    SameStatus Alike (h.updateOutputArg abi idx arg) (k.updateOutputArg abi idx arg) := by
  cases arg with
  | aclTensor tensor => exact alike_outputTensor abi hk tensor
  | aclTensorList tensorList => exact alike_outputList abi (tensorList.getD []) hk
  | dataType _ | int _ | float _ | double _ | string _ | aclScalar _ | intList _ | floatList _
  | boolList _ | other => exact ⟨rfl, hk⟩

theorem alike_attrArg (idx : Nat) (arg : OpArg) (s s' : Nat × Holder)
    (hs : AlikeAttr s s') :
    SameStatus AlikeAttr (updateAttrArg abi idx arg s) (updateAttrArg abi idx arg s') := by
  obtain ⟨p, h⟩ := s
  obtain ⟨p', k⟩ := s'
  obtain ⟨rfl, hstart⟩ := hs
  dsimp only at hstart
  unfold updateAttrArg
  dsimp only
  rw [hstart]
  split
  next => exact ⟨rfl, rfl, hstart⟩
  next =>
    cases updateAttrValue abi p arg with
    | none => exact ⟨rfl, rfl, hstart⟩
    | some value => exact ⟨rfl, rfl, hstart⟩

/-- Whether an update succeeds does not depend on what the context held. -/
theorem status_eq (h k : Holder) (call : Call) :
    (h.updateComputeNodeInfo abi call).1 = (k.updateComputeNodeInfo abi call).1 := by
  -- what the steps look at is the same in both
  obtain ⟨hstatus, halike⟩ := visitBy_sameStatus (alike_inputArg abi) call.input 0
    (⟨rfl, rfl, rfl⟩ : Alike (h.reset call) (k.reset call))
  unfold updateComputeNodeInfo
  rcases hr : visitBy (updateInputArg abi) 0 call.input (h.reset call) with ⟨status, h₁⟩
  rcases hr' : visitBy (updateInputArg abi) 0 call.input (k.reset call) with ⟨status', k₁⟩
  rw [hr, hr'] at hstatus halike
  cases hstatus
  cases status with
  | errInner => rfl
  | success =>
    obtain ⟨hstatus, halike⟩ := visitBy_sameStatus (alike_outputArg abi) call.output 0 halike
    dsimp only
    rcases hr : visitBy (updateOutputArg abi) 0 call.output h₁ with ⟨status, h₂⟩
    rcases hr' : visitBy (updateOutputArg abi) 0 call.output k₁ with ⟨status', k₂⟩
    rw [hr, hr'] at hstatus halike
    cases hstatus
    cases status with
    | errInner => rfl
    | success =>
      have hstart : (h₂.finalize abi call.attr.length).attrDataStart =
          (k₂.finalize abi call.attr.length).attrDataStart := by
        unfold finalize
        dsimp only
        rw [halike.inputNum, halike.outputNum, halike.compileDesc]
      obtain ⟨hstatus, -⟩ := visitBy_sameStatus (alike_attrArg abi) call.attr 0
        (⟨hstart, hstart⟩ : AlikeAttr
          ((h₂.finalize abi call.attr.length).attrDataStart, h₂.finalize abi call.attr.length)
          ((k₂.finalize abi call.attr.length).attrDataStart, k₂.finalize abi call.attr.length))
      dsimp only
      rcases hr : visitBy (updateAttrArg abi) 0 call.attr
        ((h₂.finalize abi call.attr.length).attrDataStart, h₂.finalize abi call.attr.length)
        with ⟨status, p, h₄⟩
      rcases hr' : visitBy (updateAttrArg abi) 0 call.attr
        ((k₂.finalize abi call.attr.length).attrDataStart, k₂.finalize abi call.attr.length)
        with ⟨status', p', k₄⟩
      rw [hr, hr'] at hstatus
      cases hstatus
      cases status with
      | success => rfl
      | errInner => rfl

end

/-! ## When the context is faithful -/

theorem copied_of_faithful (hfresh : h.written = [])
    (hok : h.updateComputeNodeInfo abi call = (.success, h')) (hfaithful : Faithful abi call h') :
    ∀ arg ∈ call.attr, arg.Copied abi := by
  obtain ⟨-, -, ws, hws, hsmall⟩ := context_laid hok
  intro arg harg c hc
  obtain ⟨k, hk⟩ := mem_iff_getElem?.mp harg
  obtain ⟨off, -, hcells⟩ := hfaithful.attrs k arg hk
  have hmem := (hcells c hc).mem
  rw [hws, hfresh, nil_append] at hmem
  have hsmallc := hsmall _ hmem
  exact hsmallc

/-- Of the calls that succeed, those leave a faithful context behind, whatever the holder was
used for before, whose attributes are all copied. -/
theorem context_faithful (abi : GeSizes) (call : Call) {h h' : Holder}
    (hok : h.updateComputeNodeInfo abi call = (.success, h')) :
    (∀ k k', updateComputeNodeInfo abi k call = (.success, k') → Faithful abi call k') ↔
      ∀ arg ∈ call.attr, arg.Copied abi := by
  constructor
  · intro hall
    have hstatus := status_eq abi h { h with written := [] } call
    rw [hok] at hstatus
    have hfresh : ({ h with written := [] } : Holder).updateComputeNodeInfo abi call =
        (.success, (({ h with written := [] } : Holder).updateComputeNodeInfo abi call).2) :=
      Prod.ext hstatus.symm rfl
    exact copied_of_faithful rfl hfresh (hall _ _ hfresh)
  · intro hcopied k k' hk
    obtain ⟨hattr, hfaithful, -⟩ := context_laid hk
    exact hfaithful fun i arg ha => hattr i arg ha (hcopied arg (mem_of_getElem? ha))

/-- Sizes of GE's structures. -/
def geSizes : GeSizes :=
  ⟨64, 12, by decide, by decide, 64, 56, 56, by decide, Nat.le_add_right 56 8, by decide⟩

/-- A holder that was not used. -/
def newHolder : Holder := ⟨[], fun _ => 0, "", "", 0, 0, 0, 0, 0, 0, 0, 0, 0, 0, 0⟩

/-- A tensor of floats. -/
def floatTensor (tensor : Nat) : Tensor := ⟨.DT_FLOAT, 2, 2, tensor⟩

/-- Nulls and lists among inputs and outputs, and three attributes. -/
def mixedCall : Call :=
  ⟨"Mixed", [.aclTensor none, .aclTensorList (some [none, some (floatTensor 1), none]),
    .aclTensorList none, .aclTensor (some (floatTensor 2))],
    [.aclTensorList (some [some (floatTensor 3), none]), .aclTensor (some (floatTensor 4))],
    [.intList (some [1, 2]), .string (some [97]), .boolList none]⟩

theorem context_faithful_mixed :
    ∃ h', newHolder.updateComputeNodeInfo geSizes mixedCall = (.success, h') ∧
      Faithful geSizes mixedCall h' := by
  have hok : newHolder.updateComputeNodeInfo geSizes mixedCall =
      (.success, (newHolder.updateComputeNodeInfo geSizes mixedCall).2) := Prod.ext rfl rfl
  exact ⟨_, hok, (context_faithful geSizes mixedCall hok).mpr (by decide) _ _ hok⟩

/-- One attribute of `2^28` integers. -/
def longCall : Call := ⟨"Long", [], [], [.intList (some (List.replicate (2 ^ 28) 0))]⟩

theorem single_success (opType : String) (value : Option (List UInt64)) :
    (newHolder.updateComputeNodeInfo geSizes ⟨opType, [], [], [.intList value]⟩).1 = .success := by
  simp [updateComputeNodeInfo, visitBy, updateAttrArg, updateAttrValue, attrCapacity, finalize]

/-- The array is not copied, and the call succeeds. -/
theorem context_unfaithful :
    ∃ h', newHolder.updateComputeNodeInfo geSizes longCall = (.success, h') ∧
      ¬ Faithful geSizes longCall h' := by
  have hok : newHolder.updateComputeNodeInfo geSizes longCall =
      (.success, (newHolder.updateComputeNodeInfo geSizes longCall).2) :=
    Prod.ext (single_success _ _) rfl
  refine ⟨_, hok, fun h => ?_⟩
  have hlen : (List.replicate (2 ^ 28) (0 : UInt64)).length = 2 ^ 28 := length_replicate
  generalize hxs : List.replicate (2 ^ 28) (0 : UInt64) = xs at hlen
  have hcopied := copied_of_faithful rfl hok h (.intList (some xs))
    (by unfold longCall; rw [hxs]; exact mem_singleton.mpr rfl)
  have hle : (xs.flatMap le8).length ≤ 0x7fffffff := by
    refine hcopied (⟨56, (xs.flatMap le8).length⟩, .bytes (xs.flatMap le8)) ?_
    cases xs with
    | nil => cases hlen
    | cons x xs => exact mem_cons_of_mem _ (mem_singleton.mpr rfl)
  rw [length_flatMap_of length_le8, hlen] at hle
  omega

end OpBase.ContextHolder
