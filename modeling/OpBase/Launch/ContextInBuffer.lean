import OpBase.Launch.ContextFaithful
import OpBase.Launch.ContextRoom

/-!
# The kernel context in its buffer

An attribute that begins in front of the capacity is written whatever its length, and the anchors
of the outputs come behind the last one.

> `attrs_written`: the walk over the attributes, also when it ends the call.
> `context_in_buffer`: all writes of a call are inside the buffer if and only if the call `Fits`.
-/

namespace OpBase.ContextHolder

open List OpBase.Lib OpBase.Lib.WriteLog
open Holder (Within updateOutputArgIr updateOutputTensorIr within_setAnchor within_write)

variable {abi : GeSizes} {size idx : Nat} {h : Holder} {call : Call} {attrPtr len : Nat}
  {ws : WriteLog Cell}

/-! ## Attributes -/

theorem inside_single {x : Extent} {cell : Cell} :
    Inside size ([(x, cell)] : WriteLog Cell) ↔ x.stop ≤ size := by
  rw [inside_cons]
  exact and_iff_left inside_nil

theorem updateArray_room {α : Type} {encode : α → List Byte} {k : Nat} (hk : 0 < k)
    (hencode : ∀ x, (encode x).length = k) {value : Option (List α)}
    (h : some (updateArray abi attrPtr value encode) = some (ws, len)) :
    some (arrayRoom abi (k * (value.getD []).length)) = some len ∧
      (Inside size ws ↔ attrPtr + arraySpan abi (k * (value.getD []).length) ≤ size) := by
  match value with
  | none =>
    cases h
    exact ⟨rfl, inside_single⟩
  | some [] =>
    cases h
    exact ⟨rfl, inside_single⟩
  | some (x :: xs) =>
    cases h
    have hlen : ((x :: xs).flatMap encode).length = k * (x :: xs).length :=
      (length_flatMap_of hencode _).trans (Nat.mul_comm _ _)
    have hpos : 0 < k * (x :: xs).length := Nat.mul_pos hk (Nat.succ_pos _)
    have hhead := abi.vectorHead_le_elements
    unfold arrayRoom arraySpan
    dsimp only [Option.getD_some]
    rw [hlen, if_neg (Nat.ne_of_gt hpos), inside_cons]
    refine ⟨rfl, ?_⟩
    unfold copied
    rw [hlen]
    split
    next =>
      rw [inside_single]
      unfold Extent.stop
      dsimp only
      omega
    next =>
      unfold Extent.stop
      exact and_iff_left inside_nil

variable {arg : OpArg}

theorem updateAttrValue_none (h : updateAttrValue abi attrPtr arg = none) :
    arg.room abi = none := by
  cases arg with
  | aclTensor _ => rfl
  | aclTensorList _ => rfl
  | other => rfl
  | string value =>
    cases value with
    | none => cases h
    | some value =>
      unfold updateAttrValue at h
      dsimp only at h
      split at h
      next hlong => exact if_pos hlong
      next => cases h
  | aclScalar value =>
    cases value with
    | none => cases h
    | some value => cases h
  | dataType _ | int _ | float _ | double _ | intList _ | floatList _ | boolList _ => cases h

/-- The room of a value, and where its last write ends. -/
theorem updateAttrValue_room (size : Nat) (h : updateAttrValue abi attrPtr arg = some (ws, len)) :
    arg.room abi = some len ∧ (Inside size ws ↔ attrPtr + arg.span abi ≤ size) := by
  cases arg with
  | aclTensor _ | aclTensorList _ | other => cases h
  | string value =>
    cases value with
    | none =>
      cases h
      exact ⟨rfl, inside_single⟩
    | some value =>
      unfold updateAttrValue at h
      dsimp only at h
      split at h
      next => cases h
      next hshort =>
        cases h
        refine ⟨if_neg hshort, ?_⟩
        have hlen : (value ++ [0]).length = value.length + 1 := length_append
        unfold maxAttrStringSize at hshort
        rw [copied_eq (by omega) (by omega), inside_single, hlen]
        rfl
  | aclScalar value =>
    cases value with
    | none =>
      cases h
      exact ⟨rfl, inside_single⟩
    | some value =>
      cases h
      have hsize := value.size
      have hpos := typeSize_pos value.dataType
      have hle := typeSize_le value.dataType
      refine ⟨congrArg some hsize.symm, ?_⟩
      rw [copied_eq (by omega) (by omega), inside_single, hsize]
      rfl
  | dataType _ =>
    cases h
    exact ⟨rfl, inside_single⟩
  | int _ =>
    cases h
    exact ⟨rfl, inside_single⟩
  | float _ =>
    cases h
    exact ⟨rfl, inside_single⟩
  | double _ =>
    cases h
    exact ⟨rfl, inside_single⟩
  | intList value =>
    exact updateArray_room (by decide) length_le8 h
  | floatList value =>
    exact updateArray_room (by decide) (fun _ => length_le _ _) h
  | boolList value =>
    have hroom : some (arrayRoom abi (1 * (value.getD []).length)) = some len ∧
        (Inside size ws ↔ attrPtr + arraySpan abi (1 * (value.getD []).length) ≤ size) :=
      updateArray_room (Nat.succ_pos 0) (fun _ => rfl) h
    rw [Nat.one_mul] at hroom
    exact hroom

variable {args : List OpArg} {used : Nat}

theorem roomOf_cons (hroom : arg.room abi = some len) :
    roomOf abi (arg :: args) = len + roomOf abi args := by
  unfold roomOf
  rw [map_cons, sum_cons, hroom, Option.getD_some]

theorem reaches_zero : Reaches abi used args 0 ↔ used < attrCapacity :=
  and_iff_right nofun

theorem reaches_succ {k : Nat} (hroom : arg.room abi = some len) :
    Reaches abi used (arg :: args) (k + 1) ↔ Reaches abi (used + len) args k := by
  unfold Reaches
  rw [take_succ_cons, forall_mem_cons, roomOf_cons hroom, hroom,
    and_iff_right (Option.some_ne_none len), Nat.add_assoc]

theorem not_reaches_succ {k : Nat} (hroom : arg.room abi = none) :
    ¬ Reaches abi used (arg :: args) (k + 1) :=
  fun hreach => hreach.1 arg mem_cons_self hroom

theorem not_reaches (hfull : attrCapacity ≤ used) (k : Nat) :
    ¬ Reaches abi used args k :=
  fun hreach => absurd hreach.2 (by omega)

/-- What the attributes `args` need from `attrPtr` on, the first of them the `idx`-th. -/
def AttrsInside (abi : GeSizes) (size attrDef attrDataStart idx attrPtr : Nat)
    (args : List OpArg) : Prop :=
  ∀ k arg, args[k]? = some arg → Reaches abi (attrPtr - attrDataStart) args k →
    (offsetAt attrDef (idx + k)).stop ≤ size ∧
      (arg.room abi ≠ none → attrPtr + roomOf abi (args.take k) + arg.span abi ≤ size)

theorem attrsInside_cons {attrDef attrDataStart : Nat} (hstart : attrDataStart ≤ attrPtr)
    (hroom : arg.room abi = some len) (hcap : attrPtr - attrDataStart < attrCapacity) :
    AttrsInside abi size attrDef attrDataStart idx attrPtr (arg :: args) ↔
      ((offsetAt attrDef idx).stop ≤ size ∧ attrPtr + arg.span abi ≤ size) ∧
        AttrsInside abi size attrDef attrDataStart (idx + 1) (attrPtr + len) args := by
  have hused : attrPtr + len - attrDataStart = attrPtr - attrDataStart + len := by omega
  unfold AttrsInside
  constructor
  · intro hall
    obtain ⟨hoffset, hspan⟩ := hall 0 arg rfl (reaches_zero.mpr hcap)
    refine ⟨⟨hoffset, hspan (by rw [hroom]; exact Option.some_ne_none len)⟩, ?_⟩
    intro k a ha hreach
    rw [hused] at hreach
    obtain ⟨hoffset, hspan⟩ := hall (k + 1) a ha ((reaches_succ hroom).mpr hreach)
    rw [take_succ_cons, roomOf_cons hroom] at hspan
    rw [show idx + 1 + k = idx + (k + 1) by omega]
    exact ⟨hoffset, fun ha => by have := hspan ha; omega⟩
  · rintro ⟨⟨hoffset, hspan⟩, hrest⟩ k a ha hreach
    cases k with
    | zero =>
      cases ha
      exact ⟨hoffset, fun _ => hspan⟩
    | succ k =>
      have hreach := (reaches_succ hroom).mp hreach
      rw [← hused] at hreach
      obtain ⟨hoffset, hspan⟩ := hrest k a ha hreach
      rw [show idx + 1 + k = idx + (k + 1) by omega] at hoffset
      rw [take_succ_cons, roomOf_cons hroom]
      exact ⟨hoffset, fun ha => by have := hspan ha; omega⟩

/-- A walk over attributes from `attrPtr` on; it ended with `r`. -/
structure AttrRun (abi : GeSizes) (size idx attrPtr : Nat) (args : List OpArg) (h : Holder)
    (r : Status × (Nat × Holder)) : Prop where
  writes : h.Within size r.2.2
    (AttrsInside abi size h.attrDef h.attrDataStart idx attrPtr args)
  state : r.2.2 = { h with written := r.2.2.written }
  status : r.1 = .success ↔ (∀ k < args.length, Reaches abi (attrPtr - h.attrDataStart) args k) ∧
    ∀ arg ∈ args, arg.room abi ≠ none
  attrPtr : r.1 = .success → r.2.1 = attrPtr + roomOf abi args

theorem updateAttrArg_refused (hcap : attrPtr - h.attrDataStart < attrCapacity)
    (hvalue : updateAttrValue abi attrPtr arg = none) :
    updateAttrArg abi idx arg (attrPtr, h) =
      (.errInner, (attrPtr, h.write (offsetAt h.attrDef idx) (.number (attrPtr - h.attrDef)))) := by
  unfold updateAttrArg
  dsimp only
  rw [if_neg (Nat.not_le.mpr hcap), hvalue]

theorem updateAttrArg_recorded (size idx : Nat) (hcap : attrPtr - h.attrDataStart < attrCapacity)
    (hvalue : updateAttrValue abi attrPtr arg = some (ws, len)) :
    ∃ h₁, updateAttrArg abi idx arg (attrPtr, h) = (.success, (attrPtr + len, h₁)) ∧
      h₁ = { h with written := h₁.written } ∧
      h.Within size h₁ ((offsetAt h.attrDef idx).stop ≤ size ∧ attrPtr + arg.span abi ≤ size) := by
  unfold updateAttrArg
  dsimp only
  rw [if_neg (Nat.not_le.mpr hcap), hvalue]
  refine ⟨_, rfl, rfl, ?_⟩
  exact (within_write _ _).trans ⟨ws, rfl, (updateAttrValue_room size hvalue).2⟩

/-- All attributes are recorded, from a `used` part of the capacity on. -/
theorem recorded_cons (hroom : arg.room abi = some len) (hcap : used < attrCapacity) :
    ((∀ k < (arg :: args).length, Reaches abi used (arg :: args) k) ∧
      ∀ a ∈ arg :: args, a.room abi ≠ none) ↔
    (∀ k < args.length, Reaches abi (used + len) args k) ∧ ∀ a ∈ args, a.room abi ≠ none := by
  rw [forall_mem_cons, hroom, and_iff_right (Option.some_ne_none len)]
  refine and_congr_left fun _ => ⟨fun hall k hk => ?_, fun hall k hk => ?_⟩
  · exact (reaches_succ hroom).mp (hall (k + 1) (Nat.succ_lt_succ hk))
  · cases k with
    | zero => exact reaches_zero.mpr hcap
    | succ k => exact (reaches_succ hroom).mpr (hall k (Nat.lt_of_succ_lt_succ hk))

/-- By induction on the attributes: what they write, and whether it is inside. -/
theorem attrs_written (abi : GeSizes) (size : Nat) (args : List OpArg) (idx attrPtr : Nat)
    (h : Holder) (hstart : h.attrDataStart ≤ attrPtr) :
    AttrRun abi size idx attrPtr args h (visitBy (updateAttrArg abi) idx args (attrPtr, h)) := by
  induction args generalizing idx attrPtr h with
  | nil =>
    exact ⟨(Within.refl rfl).congr (iff_of_true trivial fun _ _ ha => by cases ha), rfl,
      iff_of_true rfl ⟨fun _ hk => absurd hk (Nat.not_lt_zero _), forall_mem_nil _⟩, fun _ => rfl⟩
  | cons arg args ih =>
    unfold visitBy
    -- the capacity is used up: the attribute is refused
    by_cases hfull : attrCapacity ≤ attrPtr - h.attrDataStart
    · rw [show updateAttrArg abi idx arg (attrPtr, h) = (.errInner, (attrPtr, h)) from if_pos hfull]
      refine ⟨(Within.refl rfl).congr (iff_of_true trivial ?_), rfl,
        iff_of_false (fun hok => by cases hok) ?_, fun hok => by cases hok⟩
      · exact fun k _ _ hreach => absurd hreach (not_reaches hfull k)
      · exact fun hall => not_reaches hfull 0 (hall.1 0 (Nat.succ_pos _))
    have hcap := Nat.not_le.mp hfull
    cases hvalue : updateAttrValue abi attrPtr arg with
    | none =>
      have hroom := updateAttrValue_none hvalue
      rw [updateAttrArg_refused hcap hvalue]
      refine ⟨(within_write _ _).congr ⟨fun hoffset k a ha hreach => ?_, fun hall => ?_⟩,
        rfl, iff_of_false (fun hok => by cases hok) ?_, fun hok => by cases hok⟩
      · cases k with
        | zero =>
          cases ha
          exact ⟨hoffset, fun hsome => absurd hroom hsome⟩
        | succ k => exact absurd hreach (not_reaches_succ hroom)
      · exact (hall 0 arg rfl (reaches_zero.mpr hcap)).1
      · exact fun hall => hall.2 arg mem_cons_self hroom
    | some value =>
      obtain ⟨ws, len⟩ := value
      have hroom := (updateAttrValue_room size hvalue).1
      obtain ⟨h₁, hstep, hstate, hwithin⟩ := updateAttrArg_recorded size idx hcap hvalue
      have hstart₁ : h₁.attrDataStart = h.attrDataStart := by rw [hstate]
      have hdef₁ : h₁.attrDef = h.attrDef := by rw [hstate]
      have hrest := ih (idx + 1) (attrPtr + len) h₁ (by omega)
      have hwrites := hrest.writes
      have hstatus := hrest.status
      rw [hdef₁, hstart₁] at hwrites
      rw [hstart₁, show attrPtr + len - h.attrDataStart = attrPtr - h.attrDataStart + len by omega]
        at hstatus
      rw [hstep]
      refine ⟨(hwithin.trans hwrites).congr (attrsInside_cons hstart hroom hcap).symm, ?_,
        hstatus.trans (recorded_cons hroom hcap).symm, fun hok => ?_⟩
      · rw [hrest.state, hstate]
      · rw [hrest.attrPtr hok, roomOf_cons hroom, Nat.add_assoc]

/-! ## The anchors of the outputs -/

theorem anchor_written_tensor (size idx seq : Nat) (h : Holder) (tensor : Option Tensor) :
    h.Within size (updateOutputTensorIr idx tensor (seq, h)).2
      ((anchorAt h.outputAnchorInfo idx).stop ≤ size) := by
  cases tensor with
  | none => exact within_setAnchor _ _ _ _
  | some t => exact within_setAnchor _ _ _ _

theorem anchors_written_list (size idx seq : Nat) (h : Holder) (tensors : List (Option Tensor)) :
    ∃ fits, h.Within size
        (tensors.foldl (fun s t => updateOutputTensorIr idx t s) (seq, h)).2 fits ∧
      ((anchorAt h.outputAnchorInfo idx).stop ≤ size → fits) := by
  induction tensors generalizing seq h with
  | nil => exact ⟨True, .refl rfl, fun _ => trivial⟩
  | cons t tensors ih =>
    have hstep := anchor_written_tensor size idx seq h t
    obtain ⟨fits, hrest, himp⟩ := ih (updateOutputTensorIr idx t (seq, h)).1
      (updateOutputTensorIr idx t (seq, h)).2
    rw [(anchorStep_tensor idx seq h t).adds.outputAnchorInfo] at himp
    exact ⟨_, hstep.trans hrest, fun hstop => ⟨hstop, himp hstop⟩⟩

theorem anchor_written (size idx seq : Nat) (h : Holder) (htensors : arg.IsTensors) :
    h.Within size (updateOutputArgIr idx arg (seq, h)).2
      ((anchorAt h.outputAnchorInfo idx).stop ≤ size) := by
  cases arg with
  | aclTensor tensor => exact anchor_written_tensor size idx seq h tensor
  | aclTensorList tensorList =>
    match tensorList with
    | none => exact within_setAnchor _ _ _ _
    | some [] => exact within_setAnchor _ _ _ _
    | some (t :: tensors) =>
      obtain ⟨fits, hlist, himp⟩ := anchors_written_list size idx seq h (t :: tensors)
      have hadds := (anchors_list idx seq h (t :: tensors)).2
      unfold updateOutputArgIr Holder.updateOutputListIr
      dsimp only
      rw [hadds.outputAnchorInfo]
      refine (hlist.trans (within_setAnchor _ _ _ _)).congr ⟨And.right, fun hstop => ?_⟩
      exact ⟨himp hstop, hstop⟩
  | dataType _ | int _ | float _ | double _ | string _ | aclScalar _ | intList _ | floatList _
  | boolList _ | other => cases htensors

theorem outputAnchors_written (size : Nat)
    (htensors : ∀ arg ∈ args, arg.IsTensors) (idx seq : Nat) (h : Holder) :
    h.Within size (Holder.updateOutputArgsIr idx args (seq, h)).2
      (∀ i < args.length, (anchorAt h.outputAnchorInfo (idx + i)).stop ≤ size) := by
  induction args generalizing idx seq h with
  | nil => exact (Within.refl rfl).congr (iff_of_true trivial nofun)
  | cons arg args ih =>
    obtain ⟨harg, hargs⟩ := forall_mem_cons.mp htensors
    have hrest := ih hargs (idx + 1) (updateOutputArgIr idx arg (seq, h)).1
      (updateOutputArgIr idx arg (seq, h)).2
    rw [(anchorStep_arg idx seq h harg).adds.outputAnchorInfo] at hrest
    refine ((anchor_written size idx seq h harg).trans hrest).congr ⟨?_, fun hall => ⟨?_, ?_⟩⟩
    · rintro ⟨hfirst, hothers⟩ i hi
      cases i with
      | zero => exact hfirst
      | succ i =>
        have hstop := hothers i (Nat.lt_of_succ_lt_succ hi)
        rwa [show idx + 1 + i = idx + (i + 1) by omega] at hstop
    · exact hall 0 (Nat.succ_pos _)
    · intro i hi
      have hstop := hall (i + 1) (Nat.succ_lt_succ hi)
      rwa [show idx + (i + 1) = idx + 1 + i by omega] at hstop

/-! ## The whole call -/

theorem accepted_append_of_all {args rest : List OpArg} (h : ∀ arg ∈ args, arg.IsTensors) :
    accepted (args ++ rest) = args ++ accepted rest :=
  takeWhile_append_of_pos fun arg harg => decide_eq_true (h arg harg)

theorem accepted_of_all (h : ∀ arg ∈ args, arg.IsTensors) : accepted args = args := by
  have happend : accepted (args ++ []) = args ++ accepted [] := accepted_append_of_all h
  rwa [append_nil, show accepted [] = [] from rfl, append_nil] at happend

theorem accepted_append_of_not {args rest : List OpArg} (h : ¬ ∀ arg ∈ args, arg.IsTensors) :
    accepted (args ++ rest) = accepted args := by
  induction args with
  | nil => exact absurd nofun h
  | cons arg args ih =>
    by_cases harg : arg.IsTensors
    · rw [cons_append, accepted_cons_of_pos harg, accepted_cons_of_pos harg]
      refine congrArg _ (ih fun hall => h ?_)
      exact forall_mem_cons.mpr ⟨harg, hall⟩
    · rw [cons_append, accepted_cons_of_neg harg, accepted_cons_of_neg harg]

theorem slots_of_inputs (hended : ¬ ((∀ arg ∈ call.input, arg.IsTensors) ∧
      (tensorsOf (accepted call.input)).length ≤ maxOpArgNum)) :
    min maxOpArgNum (tensorsOf (accepted (call.input ++ call.output))).length =
      min maxOpArgNum (tensorsOf (accepted call.input)).length := by
  by_cases hall : ∀ arg ∈ call.input, arg.IsTensors
  · have hmany : ¬ (tensorsOf (accepted call.input)).length ≤ maxOpArgNum := fun hle =>
      hended ⟨hall, hle⟩
    rw [accepted_of_all hall] at hmany ⊢
    rw [accepted_append_of_all hall, tensorsOf, flatMap_append, length_append, ← tensorsOf]
    omega
  · rw [accepted_append_of_not hall]

theorem anchors_of_slot (hslot : (descAt abi call.compileDesc 0).stop ≤ size) :
    ∀ i < call.input.length, (anchorAt anchorInfo i).stop ≤ size := by
  intro i hi
  unfold descAt anchorAt Call.compileDesc Extent.stop anchorInstanceInfo at *
  dsimp only at *
  omega

theorem inputsInside_iff {hi num : Nat} (hhi : hi ≤ (accepted call.input).length)
    (hfull : (tensorsOf (accepted call.input)).length ≤ maxOpArgNum →
      hi = (accepted call.input).length)
    (hnum : (tensorsOf (accepted call.input)).length ≤ num) :
    InputsInside abi size call.compileDesc 0 hi 0 (min maxOpArgNum num) ↔
      (∀ i < (accepted call.input).length, (anchorAt anchorInfo i).stop ≤ size) ∧
        ∀ s < min maxOpArgNum num, (descAt abi call.compileDesc s).stop ≤ size := by
  constructor
  · rintro ⟨hanchors, hslots⟩
    refine ⟨fun i hlt => ?_, fun s hs => hslots s (Nat.zero_le s) hs⟩
    by_cases hle : (tensorsOf (accepted call.input)).length ≤ maxOpArgNum
    · exact hanchors i (Nat.zero_le i) (by rw [hfull hle]; exact hlt)
    · have hslot := hslots 0 (Nat.le_refl 0) (by unfold maxOpArgNum at *; omega)
      exact anchors_of_slot hslot i (Nat.lt_of_lt_of_le hlt (List.takeWhile_prefix _).length_le)
  · rintro ⟨hanchors, hslots⟩
    exact ⟨fun i _ hlt => hanchors i (by omega), fun s _ hs => hslots s hs⟩

/-- All attributes are recorded. -/
def Call.AttrsRecorded (abi : GeSizes) (call : Call) : Prop :=
  (∀ k < call.attr.length, Reaches abi 0 call.attr k) ∧ ∀ arg ∈ call.attr, arg.room abi ≠ none

/-- What the part behind the descriptors needs. -/
def AttrPartInside (abi : GeSizes) (size : Nat) (call : Call) : Prop :=
  call.attrDef abi + 8 ≤ size ∧
    AttrsInside abi size (call.attrDef abi) (call.attrDataStart abi) 0 (call.attrDataStart abi)
      call.attr ∧
    (call.AttrsRecorded abi → ∀ i < call.output.length,
      (anchorAt (call.attrDataStart abi + roomOf abi call.attr) i).stop ≤ size)

/-- `Fits` in the order of the call. -/
theorem fits_iff :
    Fits abi size call ↔
      ((∀ i < (accepted call.input).length, (anchorAt anchorInfo i).stop ≤ size) ∧
        ∀ s < min maxOpArgNum (tensorsOf (accepted (call.input ++ call.output))).length,
          (descAt abi call.compileDesc s).stop ≤ size) ∧
      (call.Recorded → AttrPartInside abi size call) := by
  unfold AttrPartInside AttrsInside Call.AttrsRecorded
  simp only [Nat.sub_self, Nat.zero_add]
  constructor
  · intro hfits
    exact ⟨⟨hfits.inputAnchors, hfits.slots⟩, fun hrecorded => ⟨hfits.attrNum hrecorded,
      hfits.attrs hrecorded, fun hattrs => hfits.outputAnchors hrecorded hattrs.1 hattrs.2⟩⟩
  · rintro ⟨⟨hanchors, hslots⟩, hrest⟩
    exact ⟨hanchors, hslots, fun hrecorded => (hrest hrecorded).1,
      fun hrecorded => (hrest hrecorded).2.1,
      fun hrecorded hreaches hall => (hrest hrecorded).2.2 ⟨hreaches, hall⟩⟩

theorem inputsInside_append {desc hi first mid last : Nat} (hfirst : first ≤ mid)
    (hmid : mid ≤ last) :
    (InputsInside abi size desc idx hi first mid ∧
      ∀ s, mid ≤ s → s < last → (descAt abi desc s).stop ≤ size) ↔
    InputsInside abi size desc idx hi first last := by
  constructor
  · rintro ⟨⟨hanchors, hslots⟩, hslots'⟩
    refine ⟨hanchors, fun s hs₀ hs₁ => ?_⟩
    by_cases hs : s < mid
    · exact hslots s hs₀ hs
    · exact hslots' s (Nat.not_lt.mp hs) hs₁
  · rintro ⟨hanchors, hslots⟩
    exact ⟨⟨hanchors, fun s hs₀ hs₁ => hslots s hs₀ (by omega)⟩,
      fun s hs₀ hs₁ => hslots s (by omega) hs₁⟩

/-- The part behind the tensors stays inside just when it fits. -/
theorem attrs_within (hrecorded : call.Recorded) (hdesc : h.compileDesc = call.compileDesc)
    (hslots : h.slots = (tensorsOf (call.input ++ call.output)).length) :
    h.Within size
      (match visitBy (updateAttrArg abi) 0 call.attr
        ((h.finalize abi call.attr.length).attrDataStart, h.finalize abi call.attr.length) with
      | (.errInner, _, h) => (Status.errInner, h)
      | (.success, attrPtr, h) => (.success, h.finish attrPtr call.output)).2
      (AttrPartInside abi size call) := by
  have hdef : (h.finalize abi call.attr.length).attrDef = call.attrDef abi := by
    unfold Holder.finalize Call.attrDef
    rw [← hdesc, ← hslots]
    rfl
  have hstart : (h.finalize abi call.attr.length).attrDataStart = call.attrDataStart abi := by
    unfold Call.attrDataStart
    rw [← hdef]
    rfl
  have hnum : h.Within size (h.finalize abi call.attr.length) (call.attrDef abi + 8 ≤ size) := by
    rw [← hdef]
    exact within_write _ _
  have hrun := attrs_written abi size call.attr 0 (call.attrDataStart abi)
    (h.finalize abi call.attr.length) (Nat.le_of_eq hstart)
  have hstatus := hrun.status
  have hwrites := hnum.trans hrun.writes
  rw [hstart, Nat.sub_self] at hstatus
  rw [hdef, hstart] at hwrites
  rw [hstart]
  rcases hvisit : visitBy (updateAttrArg abi) 0 call.attr
    (call.attrDataStart abi, h.finalize abi call.attr.length) with ⟨status, attrPtr, h₄⟩
  rw [hvisit] at hstatus hwrites
  cases status with
  | errInner =>
    refine hwrites.congr (and_congr_right fun _ => (and_iff_left ?_).symm)
    exact fun hattrs => nomatch hstatus.mpr hattrs
  | success =>
    have hattrs : call.AttrsRecorded abi := hstatus.mp rfl
    have hptr := hrun.attrPtr (by rw [hvisit])
    rw [hvisit] at hptr
    have hanchors := outputAnchors_written size
      (fun arg harg => hrecorded.1 arg (mem_append_right _ harg)) 0 0
      { h₄ with attrSize := attrPtr - h₄.attrDef, outputAnchorInfo := attrPtr }
    dsimp only at hptr hanchors hwrites
    rw [hptr] at hanchors ⊢
    have hfinish : h₄.Within size (h₄.finish (call.attrDataStart abi + roomOf abi call.attr)
        call.output) (∀ i < call.output.length,
          (anchorAt (call.attrDataStart abi + roomOf abi call.attr) i).stop ≤ size) := by
      simp only [Nat.zero_add] at hanchors
      exact hanchors
    refine (hwrites.trans hfinish).congr (and_assoc.trans ?_)
    exact and_congr_right fun _ => and_congr_right fun _ => (imp_iff_right hattrs).symm

/-- The outputs and what follows stay inside just when they fit. -/
theorem outputs_within (hin : ∀ arg ∈ call.input, arg.IsTensors)
    (hle : (tensorsOf call.input).length ≤ maxOpArgNum)
    (hdesc : h.compileDesc = call.compileDesc)
    (hslots : h.slots = (tensorsOf call.input).length) :
    h.Within size
      (match visitBy (Holder.updateOutputArg abi) 0 call.output h with
      | (.errInner, h) => (Status.errInner, h)
      | (.success, h) =>
        match visitBy (updateAttrArg abi) 0 call.attr
          ((h.finalize abi call.attr.length).attrDataStart, h.finalize abi call.attr.length) with
        | (.errInner, _, h) => (.errInner, h)
        | (.success, attrPtr, h) => (.success, h.finish attrPtr call.output)).2
      ((∀ s, (tensorsOf call.input).length ≤ s →
        s < min maxOpArgNum (tensorsOf (accepted (call.input ++ call.output))).length →
          (descAt abi call.compileDesc s).stop ≤ size) ∧
        (call.Recorded → AttrPartInside abi size call)) := by
  have hroom : h.slots ≤ maxOpArgNum := by omega
  have hrun := outputs_written abi size call.output 0 hroom
  have htotal : (tensorsOf (accepted (call.input ++ call.output))).length =
      (tensorsOf call.input).length + (tensorsOf (accepted call.output)).length := by
    rw [accepted_append_of_all hin, tensorsOf, flatMap_append, length_append]
    rfl
  have hwrites := hrun.writes
  have hstatus := hrun.status
  rw [hrun.slots, hdesc, hslots, ← htotal] at hwrites
  rw [hslots, ← htotal] at hstatus
  -- the outputs are reached only when the inputs went through
  have hrecorded : call.Recorded ↔ (∀ arg ∈ call.output, arg.IsTensors) ∧
      (tensorsOf (accepted (call.input ++ call.output))).length ≤ maxOpArgNum := by
    constructor
    · rintro ⟨hall, hroom⟩
      rw [accepted_of_all hall]
      exact ⟨(forall_mem_append.mp hall).2, hroom⟩
    · rintro ⟨hout, hroom⟩
      have hall := forall_mem_append.mpr ⟨hin, hout⟩
      rw [accepted_of_all hall] at hroom
      exact ⟨hall, hroom⟩
  rcases hvisit : visitBy (Holder.updateOutputArg abi) 0 call.output h with ⟨status, h₂⟩
  rw [hvisit] at hstatus hwrites
  cases status with
  | errInner =>
    refine hwrites.congr (and_iff_left fun hok => ?_).symm
    cases hstatus.mpr (hrecorded.mp hok)
  | success =>
    have hok := hrecorded.mpr (hstatus.mp rfl)
    have hslots₂ := hrun.slots
    have hdesc₂ := hrun.compileDesc
    rw [hvisit, hslots, ← htotal, Nat.min_eq_right (hstatus.mp rfl).2] at hslots₂
    rw [hvisit] at hdesc₂
    rw [accepted_of_all hok.1] at hslots₂
    refine (hwrites.trans (attrs_within hok (hdesc₂.trans hdesc) hslots₂)).congr ?_
    exact and_congr_right fun _ => (imp_iff_right hok).symm

/-- An update stays inside the buffer just when all of its parts fit. -/
theorem update_within (abi : GeSizes) (size : Nat) (h : Holder) (call : Call) :
    h.Within size (h.updateComputeNodeInfo abi call).2 (Fits abi size call) := by
  have hreset : (h.reset call).inputNum ≤ maxOpArgNum := Nat.zero_le _
  obtain ⟨hi, -, hhi, hfull, hrun⟩ := inputs_written abi size call.input 0 hreset
  rw [Nat.zero_add] at hhi hfull
  rw [show (h.reset call).inputNum = 0 from rfl, Nat.zero_add] at hfull
  have hnum := hrun.inputNum
  have hstatus := hrun.status
  have hwrites : h.Within size _ _ := hrun.writes
  rw [show (h.reset call).inputNum = 0 from rfl, Nat.zero_add] at hnum hstatus
  rw [show (h.reset call).inputNum = 0 from rfl,
    show (h.reset call).compileDesc = call.compileDesc from rfl, hnum] at hwrites
  unfold Holder.updateComputeNodeInfo
  rcases hvisit : visitBy (Holder.updateInputArg abi) 0 call.input (h.reset call) with ⟨status, h₁⟩
  rw [hvisit] at hstatus hwrites
  rw [fits_iff]
  cases status with
  | errInner =>
    -- an input was refused: nothing else is written
    have hended : ¬ ((∀ arg ∈ call.input, arg.IsTensors) ∧
        (tensorsOf (accepted call.input)).length ≤ maxOpArgNum) := fun hok =>
      nomatch hstatus.mpr hok
    have hnot : ¬ call.Recorded := fun ⟨htensors, hle⟩ => by
      obtain ⟨hin, hout⟩ := forall_mem_append.mp htensors
      refine hended ⟨hin, ?_⟩
      rw [accepted_of_all hin]
      rw [tensorsOf, flatMap_append, length_append] at hle
      exact Nat.le_of_add_right_le hle
    refine hwrites.congr ?_
    rw [and_iff_left fun h => absurd h hnot, slots_of_inputs hended]
    exact inputsInside_iff hhi hfull (Nat.le_refl _)
  | success =>
    obtain ⟨hin, hle⟩ := hstatus.mp rfl
    have hslots₁ : h₁.slots = (tensorsOf call.input).length := by
      have hout := hrun.outputNum
      rw [hvisit] at hnum hout
      unfold Holder.slots
      rw [show h₁.inputNum = _ from hnum, show h₁.outputNum = 0 from hout, Nat.min_eq_right hle,
        accepted_of_all hin, Nat.add_zero]
    have hdesc₁ : h₁.compileDesc = call.compileDesc := by
      have hdesc := hrun.compileDesc
      rw [hvisit] at hdesc
      exact hdesc
    rw [accepted_of_all hin] at hle
    have htotal : (tensorsOf (accepted call.input)).length ≤
        (tensorsOf (accepted (call.input ++ call.output))).length := by
      rw [accepted_append_of_all hin, accepted_of_all hin, tensorsOf, tensorsOf,
        flatMap_append, length_append]
      exact Nat.le_add_right _ _
    have hmin : min maxOpArgNum (tensorsOf (accepted call.input)).length =
        (tensorsOf call.input).length := by
      rw [accepted_of_all hin, Nat.min_eq_right hle]
    have hmid : (tensorsOf call.input).length ≤
        min maxOpArgNum (tensorsOf (accepted (call.input ++ call.output))).length := by
      rw [← hmin]
      omega
    refine (hwrites.trans (outputs_within hin hle hdesc₁ hslots₁)).congr ?_
    rw [← and_assoc, hmin]
    refine and_congr_left fun _ => ?_
    exact (inputsInside_append (Nat.zero_le _) hmid).trans (inputsInside_iff hhi hfull htotal)

/-- A call writes inside the buffer, whether it succeeds or not, if and only if it fits. -/
theorem context_in_buffer (abi : GeSizes) (h : Holder) (call : Call) :
    ∃ ws, (h.updateComputeNodeInfo abi call).2.written = h.written ++ ws ∧
      ((∀ w ∈ ws, w.1.stop ≤ computeNodeInfoSize abi) ↔ Fits abi (computeNodeInfoSize abi) call) :=
  update_within abi (computeNodeInfoSize abi) h call

theorem span_intList (value : Option (List UInt64)) :
    (OpArg.intList value).span abi = arraySpan abi (8 * (value.getD []).length) := rfl

/-- One attribute of 20000 integers. -/
def wideCall : Call := ⟨"Wide", [], [], [.intList (some (List.replicate 20000 0))]⟩

/-- The integers go behind the end of the buffer, and the call succeeds. -/
theorem context_overrun :
    ∃ h' ws, newHolder.updateComputeNodeInfo geSizes wideCall = (.success, h') ∧
      h'.written = newHolder.written ++ ws ∧
      ¬ ∀ w ∈ ws, w.1.stop ≤ computeNodeInfoSize geSizes := by
  have hok : newHolder.updateComputeNodeInfo geSizes wideCall =
      (.success, (newHolder.updateComputeNodeInfo geSizes wideCall).2) :=
    Prod.ext (single_success _ _) rfl
  obtain ⟨ws, hws, hiff⟩ :=
    update_within geSizes (computeNodeInfoSize geSizes) newHolder wideCall
  refine ⟨_, ws, hok, hws, fun hall => ?_⟩
  have hspan := (hiff.mp hall).attrs ⟨nofun, Nat.zero_le _⟩ 0
    (.intList (some (List.replicate 20000 0))) rfl (reaches_zero.mpr (by decide))
  have hlen : (List.replicate 20000 (0 : UInt64)).length = 20000 := length_replicate
  have hinside := hspan.2 (by unfold OpArg.room; exact Option.some_ne_none _)
  rw [span_intList, Option.getD_some, hlen] at hinside
  exact absurd hinside (by decide)

end OpBase.ContextHolder
