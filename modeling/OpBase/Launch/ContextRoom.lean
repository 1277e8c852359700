import OpBase.Launch.ContextSlots

/-!
# The room a kernel context takes

The buffer has one size, of `BuildComputeNodeInfo`, for 1024 anchors, 1024 descriptors and 32K of
attributes. Held against a count are the tensors only, and attributes against the 32K where they
begin: the null tensors among the inputs, the bytes of the last attribute, the table of the
attributes and the anchors of the outputs are as many as the call has.

> `inputs_written`, `outputs_written`: the anchors and slots they are written to, also when they
> end the call.
-/

namespace OpBase.ContextHolder

open List OpBase.Lib OpBase.Lib.WriteLog

/-! ## What fits -/

instance (arg : OpArg) : Decidable arg.IsTensors :=
  match arg with
  | .aclTensor _ | .aclTensorList _ => .isTrue trivial
  | .dataType _ | .int _ | .float _ | .double _ | .string _ | .aclScalar _ | .intList _
  | .floatList _ | .boolList _ | .other => .isFalse id

/-- The arguments in front of the first that is no tensor. -/
def accepted (args : List OpArg) : List OpArg := args.takeWhile fun arg => arg.IsTensors

/-- What an array takes whose elements have so many bytes. -/
def arrayRoom (abi : GeSizes) (data : Nat) : Nat :=
  if data = 0 then abi.continuousVector else abi.vectorElements + data

/-- Where the last byte is that is written for it. -/
def arraySpan (abi : GeSizes) (data : Nat) : Nat :=
  if copies data then abi.vectorElements + data else abi.vectorHead

/-- What an attribute takes; nothing if it is refused. -/
def OpArg.room (abi : GeSizes) : OpArg → Option Nat
  | dataType _ | int _ | float _ | double _ | string none | aclScalar none => some 8
  | string (some value) =>
    if maxAttrStringSize ≤ value.length then none else some (alignSize (value.length + 1))
  | aclScalar (some value) => some (typeSize value.dataType)
  | intList value => some (arrayRoom abi (8 * (value.getD []).length))
  | floatList value => some (arrayRoom abi (4 * (value.getD []).length))
  | boolList value => some (arrayRoom abi (value.getD []).length)
  | _ => none

/-- Where the last byte is that is written for an attribute. -/
def OpArg.span (abi : GeSizes) : OpArg → Nat
  | string none => 1
  | string (some value) => value.length + 1
  | aclScalar (some value) => typeSize value.dataType
  | intList value => arraySpan abi (8 * (value.getD []).length)
  | floatList value => arraySpan abi (4 * (value.getD []).length)
  | boolList value => arraySpan abi (value.getD []).length
  | _ => 8

/-- What attributes take together. -/
def roomOf (abi : GeSizes) (args : List OpArg) : Nat :=
  (args.map fun arg => (arg.room abi).getD 0).sum

/-- Where the descriptors are. -/
def Call.compileDesc (call : Call) : Nat := anchorInfo + anchorInstanceInfo * call.input.length

/-- Where the attributes are if all tensors have a descriptor. -/
def Call.attrDef (abi : GeSizes) (call : Call) : Nat :=
  call.compileDesc + abi.compileTimeTensorDesc * (tensorsOf (call.input ++ call.output)).length

/-- Where the bytes of the attributes begin. -/
def Call.attrDataStart (abi : GeSizes) (call : Call) : Nat :=
  call.attrDef abi + runtimeAttrsDef + 8 * call.attr.length

/-- All inputs and outputs are recorded. -/
def Call.Recorded (call : Call) : Prop :=
  (∀ arg ∈ call.input ++ call.output, arg.IsTensors) ∧
    (tensorsOf (call.input ++ call.output)).length ≤ maxOpArgNum

/-- The attributes in front of `k` are recorded, and `k` begins in front of the capacity, of
which `used` bytes are taken by those before. -/
def Reaches (abi : GeSizes) (used : Nat) (args : List OpArg) (k : Nat) : Prop :=
  (∀ arg ∈ args.take k, arg.room abi ≠ none) ∧ used + roomOf abi (args.take k) < attrCapacity

/-- A buffer of `size` bytes has room for the call. -/
structure Fits (abi : GeSizes) (size : Nat) (call : Call) : Prop where
  inputAnchors : ∀ i < (accepted call.input).length, (anchorAt anchorInfo i).stop ≤ size
  slots : ∀ s < min maxOpArgNum (tensorsOf (accepted (call.input ++ call.output))).length,
    (descAt abi call.compileDesc s).stop ≤ size
  attrNum : call.Recorded → call.attrDef abi + 8 ≤ size
  attrs : call.Recorded → ∀ k arg, call.attr[k]? = some arg → Reaches abi 0 call.attr k →
    (offsetAt (call.attrDef abi) k).stop ≤ size ∧
      (arg.room abi ≠ none →
        call.attrDataStart abi + roomOf abi (call.attr.take k) + arg.span abi ≤ size)
  outputAnchors : call.Recorded → (∀ k < call.attr.length, Reaches abi 0 call.attr k) →
    (∀ arg ∈ call.attr, arg.room abi ≠ none) →
    ∀ i < call.output.length,
      (anchorAt (call.attrDataStart abi + roomOf abi call.attr) i).stop ≤ size

/-! ## What a part of a call writes -/

/-- What is written from `h` to `h'` is inside of `size` bytes if and only if `fits`. -/
def Holder.Within (size : Nat) (h h' : Holder) (fits : Prop) : Prop :=
  ∃ ws, h'.written = h.written ++ ws ∧ (Inside size ws ↔ fits)

variable {abi : GeSizes} {size : Nat} {h h' h'' : Holder} {fits fits' : Prop}

theorem Holder.Within.refl (heq : h'.written = h.written) : h.Within size h' True :=
  ⟨[], by rw [heq, append_nil], iff_true_intro inside_nil⟩

/-- Two updates, one behind the other. -/
theorem Holder.Within.trans (hw : h.Within size h' fits) (hw' : h'.Within size h'' fits') :
    h.Within size h'' (fits ∧ fits') := by
  obtain ⟨ws, heq, hiff⟩ := hw
  obtain ⟨ws', heq', hiff'⟩ := hw'
  refine ⟨ws ++ ws', by rw [heq', heq, append_assoc], ?_⟩
  rw [inside_append, hiff, hiff']

theorem Holder.Within.congr (hw : h.Within size h' fits) (hiff : fits ↔ fits') :
    h.Within size h' fits' := by
  obtain ⟨ws, heq, hws⟩ := hw
  exact ⟨ws, heq, hws.trans hiff⟩

theorem Holder.within_write (x : Extent) (cell : Cell) :
    h.Within size (h.write x cell) (x.stop ≤ size) :=
  ⟨[(x, cell)], rfl, by rw [inside_cons]; exact and_iff_left inside_nil⟩

theorem Holder.within_setAnchor (base idx start num : Nat) :
    h.Within size (h.setAnchor base idx start num) ((anchorAt base idx).stop ≤ size) :=
  within_write _ _

theorem Holder.within_setSlot (slot : Nat) (t : Tensor) :
    h.Within size (h.setSlot abi slot t) ((descAt abi h.compileDesc slot).stop ≤ size) :=
  within_write _ _

/-! ## Inputs -/

/-- The anchors in front of `hi` and the slots in front of `last` are inside. -/
def InputsInside (abi : GeSizes) (size desc idx hi first last : Nat) : Prop :=
  (∀ i, idx ≤ i → i < hi → (anchorAt anchorInfo i).stop ≤ size) ∧
    ∀ s, first ≤ s → s < last → (descAt abi desc s).stop ≤ size

theorem inputsInside_and {desc idx lo hi hi' first mid last : Nat} (hidx : idx ≤ lo) (hlo : lo ≤ hi)
    (hfirst : first ≤ mid) (hmid : mid ≤ last) :
    InputsInside abi size desc idx hi first mid ∧ InputsInside abi size desc lo hi' mid last ↔
      InputsInside abi size desc idx (max hi hi') first last := by
  constructor
  · rintro ⟨⟨hanchors, hslots⟩, hanchors', hslots'⟩
    refine ⟨fun i hi₀ hi₁ => ?_, fun s hs₀ hs₁ => ?_⟩
    · by_cases h : i < hi
      · exact hanchors i hi₀ h
      · exact hanchors' i (by omega) (by omega)
    · by_cases h : s < mid
      · exact hslots s hs₀ h
      · exact hslots' s (by omega) hs₁
  · rintro ⟨hanchors, hslots⟩
    exact ⟨⟨fun i hi₀ hi₁ => hanchors i hi₀ (by omega), fun s hs₀ hs₁ => hslots s hs₀ (by omega)⟩,
      fun i hi₀ hi₁ => hanchors i (by omega) (by omega), fun s hs₀ hs₁ => hslots s (by omega) hs₁⟩

/-- A walk over inputs with `num` tensors, all tensors if `good`; it ended with `r`. -/
structure InputRun (abi : GeSizes) (size idx hi num : Nat) (good : Prop) (h : Holder)
    (r : Status × Holder) : Prop where
  writes : h.Within size r.2
    (InputsInside abi size h.compileDesc idx hi h.inputNum r.2.inputNum)
  compileDesc : r.2.compileDesc = h.compileDesc
  outputNum : r.2.outputNum = h.outputNum
  inputNum : r.2.inputNum = min maxOpArgNum (h.inputNum + num)
  status : r.1 = .success ↔ good ∧ h.inputNum + num ≤ maxOpArgNum

variable {idx lo hi hi' num num' : Nat} {good good' : Prop} {r : Status × Holder}

theorem InputRun.stopped (hrun : InputRun abi size idx hi num True h (.errInner, h')) :
    InputRun abi size idx hi (num + num') good h (.errInner, h') := by
  have hfull : ¬ h.inputNum + num ≤ maxOpArgNum := fun hle =>
    nomatch hrun.status.mpr ⟨trivial, hle⟩
  have hnum := hrun.inputNum
  exact ⟨hrun.writes, hrun.compileDesc, hrun.outputNum, by omega, ⟨nofun, fun hok => by omega⟩⟩

theorem InputRun.trans (hrun : InputRun abi size idx hi num True h (.success, h'))
    (hrest : InputRun abi size lo hi' num' good h' r) (hidx : idx ≤ lo) (hlo : lo ≤ hi) :
    InputRun abi size idx (max hi hi') (num + num') good h r := by
  have hle := (hrun.status.mp rfl).2
  have hnum := hrun.inputNum
  have hnum' := hrest.inputNum
  have hwrites := hrest.writes
  rw [show h'.compileDesc = h.compileDesc from hrun.compileDesc] at hwrites
  refine ⟨(hrun.writes.trans hwrites).congr (inputsInside_and hidx hlo ?_ ?_),
    hrest.compileDesc.trans hrun.compileDesc, hrest.outputNum.trans hrun.outputNum, ?_, ?_⟩
  · dsimp only at hnum ⊢
    omega
  · dsimp only at hnum ⊢
    omega
  · dsimp only at hnum
    omega
  · rw [hrest.status]
    dsimp only at hnum
    rw [hnum, Nat.min_eq_right hle, Nat.add_assoc]

theorem inputRun_setAnchor (abi : GeSizes) (size : Nat) (hle : h.inputNum ≤ maxOpArgNum)
    (start n : Nat) :
    InputRun abi size idx (idx + 1) 0 True h (.success, h.setAnchor anchorInfo idx start n) := by
  refine ⟨(Holder.within_setAnchor anchorInfo idx start n).congr ⟨fun hstop => ⟨?_, ?_⟩,
    fun hinside => hinside.1 idx (Nat.le_refl _) (Nat.lt_succ_self _)⟩, rfl, rfl, ?_, ?_⟩
  · intro i hi₀ hi₁
    rw [show i = idx by omega]
    exact hstop
  · intro s hs₀ hs₁
    exact absurd hs₁ (Nat.not_lt.mpr hs₀)
  · exact (Nat.min_eq_right hle).symm
  · exact iff_of_true rfl ⟨trivial, hle⟩

theorem inputRun_setSlot (h : Holder) (hlt : h.inputNum < maxOpArgNum) (t : Tensor) :
    InputRun abi size idx idx 1 True h
      (.success, { h.setSlot abi h.inputNum t with inputNum := h.inputNum + 1 }) := by
  have hwithin : h.Within size (h.setSlot abi h.inputNum t)
    ((descAt abi h.compileDesc h.inputNum).stop ≤ size) := Holder.within_setSlot h.inputNum t
  refine ⟨hwithin.congr ⟨fun hstop => ⟨?_, ?_⟩,
    fun hinside => hinside.2 _ (Nat.le_refl _) (Nat.lt_succ_self _)⟩, rfl, rfl, ?_, ?_⟩
  · intro i hi₀ hi₁
    exact absurd hi₁ (Nat.not_lt.mpr hi₀)
  · intro s hs₀ (hs₁ : s < h.inputNum + 1)
    rw [show s = h.inputNum by omega]
    exact hstop
  · exact (Nat.min_eq_right hlt).symm
  · exact iff_of_true rfl ⟨trivial, hlt⟩

theorem InputRun.refl (hle : h.inputNum ≤ maxOpArgNum) :
    InputRun abi size idx idx 0 True h (.success, h) := by
  refine ⟨(Holder.Within.refl rfl).congr (iff_of_true trivial ⟨?_, ?_⟩), rfl, rfl,
    (Nat.min_eq_right hle).symm, iff_of_true rfl ⟨trivial, hle⟩⟩
  · intro i hi₀ hi₁
    exact absurd hi₁ (Nat.not_lt.mpr hi₀)
  · intro s hs₀ hs₁
    exact absurd hs₁ (Nat.not_lt.mpr hs₀)

theorem InputRun.refused (hle : h.inputNum ≤ maxOpArgNum)
    (hrefused : ¬ (good ∧ h.inputNum + num ≤ maxOpArgNum))
    (hnum : num = 0 ∨ h.inputNum = maxOpArgNum) :
    InputRun abi size idx idx num good h (.errInner, h) := by
  refine ⟨(InputRun.refl hle).writes, rfl, rfl, ?_, iff_of_false nofun hrefused⟩
  dsimp only
  omega

/-- One tensor writes its anchor and its slot, up to the limit. -/
theorem inputRun_tensor (abi : GeSizes) (size idx : Nat) (hle : h.inputNum ≤ maxOpArgNum)
    (tensor : Option Tensor) :
    ∃ hi, idx ≤ hi ∧ hi ≤ idx + 1 ∧
      (h.inputNum + tensor.toList.length ≤ maxOpArgNum → hi = idx + 1) ∧
      InputRun abi size idx hi tensor.toList.length True h
        (h.updateInputTensor abi idx tensor) := by
  cases tensor with
  | none =>
    exact ⟨idx + 1, Nat.le_succ _, Nat.le_refl _, fun _ => rfl, inputRun_setAnchor abi size hle _ _⟩
  | some t =>
    unfold Holder.updateInputTensor
    dsimp only
    split
    next hfull =>
      have heq : h.inputNum = maxOpArgNum := Nat.le_antisymm hle hfull
      refine ⟨idx, Nat.le_refl _, Nat.le_succ _, fun hroom => ?_, .refused hle ?_ (.inr heq)⟩
      · have hroom' : h.inputNum + 1 ≤ maxOpArgNum := hroom
        omega
      · rintro ⟨-, hroom⟩
        have hroom' : h.inputNum + 1 ≤ maxOpArgNum := hroom
        omega
    next hlt =>
      have hrun := (inputRun_setAnchor abi size hle h.inputNum 1).trans
        (inputRun_setSlot (h.setAnchor anchorInfo idx h.inputNum 1) (Nat.not_le.mp hlt) t)
        (Nat.le_refl idx) (Nat.le_succ idx)
      rw [Nat.max_eq_left (Nat.le_succ idx), Nat.zero_add] at hrun
      exact ⟨idx + 1, Nat.le_succ _, Nat.le_refl _, fun _ => rfl, hrun⟩

theorem inputRun_tensors (abi : GeSizes) (size idx : Nat) (tensors : List (Option Tensor))
    (hle : h.inputNum ≤ maxOpArgNum) :
    ∃ hi, idx ≤ hi ∧ hi ≤ idx + 1 ∧
      InputRun abi size idx hi (tensors.flatMap Option.toList).length True h
        (h.updateInputTensors abi idx tensors) := by
  induction tensors generalizing h with
  | nil => exact ⟨idx, Nat.le_refl _, Nat.le_succ _, .refl hle⟩
  | cons t tensors ih =>
    obtain ⟨hi, hlo, hhi, -, hrun⟩ := inputRun_tensor abi size idx hle t
    rw [flatMap_cons, length_append]
    unfold Holder.updateInputTensors
    split
    next h₁ htensor =>
      rw [htensor] at hrun
      have hle₁ : h₁.inputNum ≤ maxOpArgNum := by
        have hnum := hrun.inputNum
        dsimp only at hnum
        omega
      obtain ⟨hi', hlo', hhi', hrest⟩ := ih hle₁
      exact ⟨max hi hi', by omega, by omega, hrun.trans hrest (Nat.le_refl _) hlo⟩
    next h₁ htensor =>
      rw [htensor] at hrun
      exact ⟨hi, hlo, hhi, hrun.stopped⟩

variable {arg : OpArg} {args : List OpArg}

/-- One input writes an anchor, and slots for its tensors. -/
theorem inputRun_arg (abi : GeSizes) (size idx : Nat) (htensors : arg.IsTensors)
    (hle : h.inputNum ≤ maxOpArgNum) :
    ∃ hi, idx ≤ hi ∧ hi ≤ idx + 1 ∧
      (h.inputNum + arg.tensors.length ≤ maxOpArgNum → hi = idx + 1) ∧
      InputRun abi size idx hi arg.tensors.length True h (h.updateInputArg abi idx arg) := by
  cases arg with
  | aclTensor tensor => exact inputRun_tensor abi size idx hle tensor
  | aclTensorList tensorList =>
    match tensorList with
    | none => exact inputRun_tensor abi size idx hle none
    | some [] => exact inputRun_tensor abi size idx hle none
    | some (t :: tensors) =>
      -- the tensors first, their anchor behind
      obtain ⟨hi, hlo, hhi, hrun⟩ :=
        inputRun_tensors abi size idx (t :: tensors) hle
      unfold Holder.updateInputArg Holder.updateInputList
      dsimp only
      split
      next h₁ hloop =>
        rw [hloop] at hrun
        have hle₁ : h₁.inputNum ≤ maxOpArgNum := by
          have hnum := hrun.inputNum
          dsimp only at hnum
          omega
        have hwhole := hrun.trans
          (inputRun_setAnchor abi size hle₁ h.inputNum (h₁.inputNum - h.inputNum))
          (Nat.le_refl _) hlo
        rw [Nat.max_eq_right hhi] at hwhole
        exact ⟨idx + 1, Nat.le_succ _, Nat.le_refl _, fun _ => rfl, hwhole⟩
      next h₁ hloop =>
        rw [hloop] at hrun
        refine ⟨hi, hlo, hhi, fun hroom => ?_, hrun⟩
        exact nomatch hrun.status.mpr ⟨trivial, hroom⟩
  | dataType _ | int _ | float _ | double _ | string _ | aclScalar _ | intList _ | floatList _
  | boolList _ | other => cases htensors

theorem accepted_cons_of_pos (h : arg.IsTensors) :
    accepted (arg :: args) = arg :: accepted args :=
  takeWhile_cons_of_pos (decide_eq_true h)

theorem accepted_cons_of_neg (h : ¬ arg.IsTensors) :
    accepted (arg :: args) = [] :=
  takeWhile_cons_of_neg fun hdec => h (of_decide_eq_true hdec)

theorem updateInputArg_refused (htensors : ¬ arg.IsTensors) :
    h.updateInputArg abi idx arg = (.errInner, h) := by
  cases arg with
  | aclTensor _ | aclTensorList _ => exact absurd trivial htensors
  | dataType _ | int _ | float _ | double _ | string _ | aclScalar _ | intList _ | floatList _
  | boolList _ | other => rfl

/-- By induction on the inputs: what they write, up to the first that is refused. -/
theorem inputs_written (abi : GeSizes) (size : Nat) (args : List OpArg) (idx : Nat)
    (hle : h.inputNum ≤ maxOpArgNum) :
    ∃ hi, idx ≤ hi ∧ hi ≤ idx + (accepted args).length ∧
      (h.inputNum + (tensorsOf (accepted args)).length ≤ maxOpArgNum →
        hi = idx + (accepted args).length) ∧
      InputRun abi size idx hi (tensorsOf (accepted args)).length (∀ arg ∈ args, arg.IsTensors) h
        (visitBy (Holder.updateInputArg abi) idx args h) := by
  induction args generalizing idx h with
  | nil =>
    have hrun : InputRun abi size idx idx 0 True h (.success, h) := .refl hle
    refine ⟨idx, Nat.le_refl _, Nat.le_refl _, fun _ => rfl, hrun.writes, rfl, rfl,
      hrun.inputNum, ?_⟩
    exact iff_of_true rfl ⟨nofun, hle⟩
  | cons arg args ih =>
    by_cases htensors : arg.IsTensors
    · obtain ⟨hi, hlo, hhi, hfull, hrun⟩ :=
        inputRun_arg abi size idx htensors hle
      rw [accepted_cons_of_pos htensors, tensorsOf, flatMap_cons, length_append,
        ← tensorsOf, length_cons]
      unfold visitBy
      split
      next h₁ harg =>
        rw [harg] at hrun
        have hroom := (hrun.status.mp rfl).2
        have hnum := hrun.inputNum
        dsimp only at hnum
        have hle₁ : h₁.inputNum ≤ maxOpArgNum := by omega
        obtain ⟨hi', hlo', hhi', hfull', hrest⟩ := ih (idx + 1) hle₁
        have hwhole := hrun.trans hrest (Nat.le_succ _) (Nat.le_of_eq (hfull hroom).symm)
        refine ⟨max hi hi', by omega, by omega, fun hle' => ?_, hwhole.writes, hwhole.compileDesc,
          hwhole.outputNum, hwhole.inputNum, ?_⟩
        · have := hfull' (by omega)
          omega
        · rw [hwhole.status, forall_mem_cons, and_iff_right htensors]
      next h₁ harg =>
        rw [harg] at hrun
        refine ⟨hi, hlo, by omega, fun hle' => ?_, hrun.stopped⟩
        exact nomatch hrun.status.mpr ⟨trivial, by omega⟩
    · rw [accepted_cons_of_neg htensors]
      unfold visitBy
      rw [updateInputArg_refused htensors]
      refine ⟨idx, Nat.le_refl _, Nat.le_refl _, fun _ => rfl, .refused hle ?_ (.inl rfl)⟩
      rintro ⟨hall, -⟩
      exact htensors (hall arg mem_cons_self)

/-! ## Outputs -/

/-- The slots in use. -/
def Holder.slots (h : Holder) : Nat := h.inputNum + h.outputNum

/-- A walk over outputs with `num` tensors, all tensors if `good`; it ended with `r`. -/
structure OutputRun (abi : GeSizes) (size num : Nat) (good : Prop) (h : Holder)
    (r : Status × Holder) : Prop where
  writes : h.Within size r.2
    (∀ s, h.slots ≤ s → s < r.2.slots → (descAt abi h.compileDesc s).stop ≤ size)
  compileDesc : r.2.compileDesc = h.compileDesc
  slots : r.2.slots = min maxOpArgNum (h.slots + num)
  status : r.1 = .success ↔ good ∧ h.slots + num ≤ maxOpArgNum

theorem OutputRun.stopped (hrun : OutputRun abi size num True h (.errInner, h')) :
    OutputRun abi size (num + num') good h (.errInner, h') := by
  have hfull : ¬ h.slots + num ≤ maxOpArgNum := fun hle =>
    nomatch hrun.status.mpr ⟨trivial, hle⟩
  have hslots := hrun.slots
  exact ⟨hrun.writes, hrun.compileDesc, by omega, ⟨nofun, fun hok => by omega⟩⟩

theorem OutputRun.trans (hrun : OutputRun abi size num True h (.success, h'))
    (hrest : OutputRun abi size num' good h' r) :
    OutputRun abi size (num + num') good h r := by
  have hle := (hrun.status.mp rfl).2
  have hslots := hrun.slots
  have hslots' := hrest.slots
  dsimp only at hslots
  have hwrites := hrest.writes
  rw [show h'.compileDesc = h.compileDesc from hrun.compileDesc] at hwrites
  refine ⟨(hrun.writes.trans hwrites).congr ⟨?_, ?_⟩, hrest.compileDesc.trans hrun.compileDesc,
    by omega, ?_⟩
  · rintro ⟨hfirst, hsecond⟩ s hs₀ hs₁
    by_cases hs : s < h'.slots
    · exact hfirst s hs₀ hs
    · exact hsecond s (Nat.not_lt.mp hs) hs₁
  · intro hall
    exact ⟨fun s hs₀ (hs₁ : s < h'.slots) => hall s hs₀ (by omega),
      fun s hs₀ hs₁ => hall s (by omega) hs₁⟩
  · rw [hrest.status, hslots, Nat.min_eq_right hle, Nat.add_assoc]

theorem OutputRun.refl (hle : h.slots ≤ maxOpArgNum) : OutputRun abi size 0 True h (.success, h) :=
  ⟨(Holder.Within.refl rfl).congr
    (iff_of_true trivial fun _ hs₀ hs₁ => absurd hs₁ (Nat.not_lt.mpr hs₀)), rfl,
    (Nat.min_eq_right hle).symm, iff_of_true rfl ⟨trivial, hle⟩⟩

theorem OutputRun.refused (hle : h.slots ≤ maxOpArgNum)
    (hrefused : ¬ (good ∧ h.slots + num ≤ maxOpArgNum))
    (hnum : num = 0 ∨ h.slots = maxOpArgNum) :
    OutputRun abi size num good h (.errInner, h) := by
  refine ⟨(OutputRun.refl hle).writes, rfl, ?_, iff_of_false nofun hrefused⟩
  dsimp only
  omega

theorem outputRun_tensor (abi : GeSizes) (size : Nat) (hle : h.slots ≤ maxOpArgNum)
    (tensor : Option Tensor) :
    OutputRun abi size tensor.toList.length True h (h.updateOutputTensor abi tensor) := by
  cases tensor with
  | none => exact .refl hle
  | some t =>
    unfold Holder.updateOutputTensor
    dsimp only
    split
    next hfull =>
      refine .refused hle ?_ (.inr (Nat.le_antisymm hle hfull))
      rintro ⟨-, hroom⟩
      exact absurd hfull (Nat.not_le.mpr hroom)
    next hlt =>
      have hwithin : h.Within size (h.setSlot abi h.slots t)
        ((descAt abi h.compileDesc h.slots).stop ≤ size) := Holder.within_setSlot h.slots t
      refine ⟨hwithin.congr ⟨fun hstop => ?_,
        fun hall => hall _ (Nat.le_refl _) (Nat.lt_succ_self _)⟩, rfl,
        (Nat.min_eq_right (Nat.not_le.mp hlt)).symm, iff_of_true rfl ⟨trivial, Nat.not_le.mp hlt⟩⟩
      intro s hs₀ (hs₁ : s < h.slots + 1)
      rw [show s = h.slots by omega]
      exact hstop

theorem outputRun_list (abi : GeSizes) (size : Nat) (tensors : List (Option Tensor))
    (hle : h.slots ≤ maxOpArgNum) :
    OutputRun abi size (tensors.flatMap Option.toList).length True h
      (h.updateOutputList abi tensors) := by
  induction tensors generalizing h with
  | nil => exact .refl hle
  | cons t tensors ih =>
    have hrun := outputRun_tensor abi size hle t
    rw [flatMap_cons, length_append]
    unfold Holder.updateOutputList
    split
    next h₁ htensor =>
      rw [htensor] at hrun
      have hslots := hrun.slots
      dsimp only at hslots
      exact hrun.trans (ih (by omega))
    next h₁ htensor =>
      rw [htensor] at hrun
      exact hrun.stopped

theorem outputRun_arg (abi : GeSizes) (size idx : Nat) (htensors : arg.IsTensors)
    (hle : h.slots ≤ maxOpArgNum) :
    OutputRun abi size arg.tensors.length True h (h.updateOutputArg abi idx arg) := by
  cases arg with
  | aclTensor tensor => exact outputRun_tensor abi size hle tensor
  | aclTensorList tensorList => exact outputRun_list abi size _ hle
  | dataType _ | int _ | float _ | double _ | string _ | aclScalar _ | intList _ | floatList _
  | boolList _ | other => cases htensors

theorem updateOutputArg_refused (htensors : ¬ arg.IsTensors) :
    h.updateOutputArg abi idx arg = (.errInner, h) := by
  cases arg with
  | aclTensor _ | aclTensorList _ => exact absurd trivial htensors
  | dataType _ | int _ | float _ | double _ | string _ | aclScalar _ | intList _ | floatList _
  | boolList _ | other => rfl

/-- By induction on the outputs: what they write, up to the first that is refused. -/
theorem outputs_written (abi : GeSizes) (size : Nat) (args : List OpArg) (idx : Nat)
    (hle : h.slots ≤ maxOpArgNum) :
    OutputRun abi size (tensorsOf (accepted args)).length (∀ arg ∈ args, arg.IsTensors) h
      (visitBy (Holder.updateOutputArg abi) idx args h) := by
  induction args generalizing idx h with
  | nil =>
    have hrun : OutputRun abi size 0 True h (.success, h) := .refl hle
    exact ⟨hrun.writes, rfl, hrun.slots, iff_of_true rfl ⟨nofun, hle⟩⟩
  | cons arg args ih =>
    by_cases htensors : arg.IsTensors
    · have hrun := outputRun_arg abi size idx htensors hle
      rw [accepted_cons_of_pos htensors, tensorsOf, flatMap_cons, length_append, ← tensorsOf]
      unfold visitBy
      split
      next h₁ harg =>
        rw [harg] at hrun
        have hslots := hrun.slots
        dsimp only at hslots
        have hwhole := hrun.trans (ih (idx + 1) (show h₁.slots ≤ maxOpArgNum by omega))
        refine ⟨hwhole.writes, hwhole.compileDesc, hwhole.slots, ?_⟩
        rw [hwhole.status, forall_mem_cons, and_iff_right htensors]
      next h₁ harg =>
        rw [harg] at hrun
        exact hrun.stopped
    · rw [accepted_cons_of_neg htensors]
      unfold visitBy
      rw [updateOutputArg_refused htensors]
      refine .refused hle ?_ (.inl rfl)
      rintro ⟨hall, -⟩
      exact htensors (hall arg mem_cons_self)

end OpBase.ContextHolder
