import OpBase.Launch.ContextSlots

/-!
# The attributes and output anchors of a kernel context

Each attribute `Encodes` its bytes from where the one before it ended, and its entry in the table
says where that is; the anchors of the outputs come behind the last.

> `attrs_done`: every attribute that was copied is found through the table.
> `outputAnchors_done`: every output has its anchor.
-/

namespace OpBase.ContextHolder

open List OpBase.Lib OpBase.Lib.WriteLog OpBase.Lib.Extent

variable {abi : GeSizes} {area area' : Extent → Prop} {idx n : Nat} {h h' : Holder}
  {data : List Byte}

/-! ## Attributes -/

theorem le_alignSize (n : Nat) : n ≤ alignSize n := by
  unfold alignSize
  omega

theorem mem_copied {off : Nat} {w : Extent × Cell} (hw : w ∈ copied off data) :
    w = (⟨off, data.length⟩, .bytes data) ∧ data.length ≤ 0x7fffffff := by
  unfold copied copies at hw
  split at hw
  next hsize => exact ⟨mem_singleton.mp hw, (of_decide_eq_true hsize).2⟩
  next => cases hw

theorem copied_eq {off : Nat} (hpos : 0 < data.length) (hle : data.length ≤ 0x7fffffff) :
    copied off data = [(⟨off, data.length⟩, .bytes data)] :=
  if_pos (decide_eq_true ⟨hpos, hle⟩)

/-- What is written for an attribute, `len` bytes from `attrPtr` on: nothing outside of them, and
its own bytes if they are copied. -/
structure Encodes (abi : GeSizes) (arg : OpArg) (attrPtr : Nat) (ws : WriteLog Cell) (len : Nat) :
    Prop where
  inside : ∀ w ∈ ws, attrPtr ≤ w.1.start ∧ w.1.stop ≤ attrPtr + len ∧ w.2.Small
  apart : ws.Pairwise fun w w' => w'.1.Apart w.1
  cells : arg.Copied abi → ws = (arg.attrCells abi).map fun c => (Extent.shift attrPtr c.1, c.2)

variable {attrPtr len : Nat} {arg : OpArg} {ws : WriteLog Cell} {x : Extent} {args : List OpArg}

theorem encodes_single {size : Nat} {cell : Cell} (hcells : arg.attrCells abi = [(⟨0, size⟩, cell)])
    (hsize : size ≤ len) (hsmall : cell.Small) :
    Encodes abi arg attrPtr [(⟨attrPtr, size⟩, cell)] len := by
  refine ⟨fun w hw => ?_, pairwise_singleton _ _, fun _ => ?_⟩
  · rw [mem_singleton.mp hw]
    exact ⟨Nat.le_refl _, Nat.add_le_add_left hsize _, hsmall⟩
  · rw [hcells]
    rfl

theorem encodes_copied (hcells : arg.attrCells abi = [(⟨0, data.length⟩, .bytes data)])
    (hsize : data.length ≤ len) (hpos : 0 < data.length) :
    Encodes abi arg attrPtr (copied attrPtr data) len := by
  refine ⟨fun w hw => ?_, ?_, fun hcopied => ?_⟩
  · obtain ⟨rfl, hsmall⟩ := mem_copied hw
    exact ⟨Nat.le_refl _, Nat.add_le_add_left hsize _, hsmall⟩
  · unfold copied
    split
    next => exact pairwise_singleton _ _
    next => exact .nil
  · have hle : data.length ≤ 0x7fffffff :=
      hcopied (⟨0, data.length⟩, .bytes data) (by rw [hcells]; exact mem_singleton.mpr rfl)
    rw [copied_eq hpos hle, hcells]
    rfl

/-- An array is encoded as its length and its elements. -/
theorem encodes_array {α : Type} {value : Option (List α)} {encode : α → List Byte}
    (hencode : ∀ x, 0 < (encode x).length)
    (hcells : arg.attrCells abi = arrayCells abi (value.getD []) encode) :
    Encodes abi arg attrPtr (updateArray abi attrPtr value encode).1
      (updateArray abi attrPtr value encode).2 := by
  match value with
  | none => exact encodes_single hcells abi.vectorHead_le trivial
  | some [] => exact encodes_single hcells abi.vectorHead_le trivial
  | some (x :: xs) =>
    have hhead := abi.vectorHead_le_elements
    have hpos : 0 < ((x :: xs).flatMap encode).length := by
      rw [flatMap_cons, length_append]
      exact Nat.add_pos_left (hencode x) _
    unfold updateArray
    dsimp only
    refine ⟨fun w hw => ?_, ?_, fun hcopied => ?_⟩
    · rcases mem_cons.mp hw with rfl | hw
      · refine ⟨Nat.le_refl _, ?_, trivial⟩
        unfold Extent.stop
        dsimp only
        omega
      · obtain ⟨rfl, hsmall⟩ := mem_copied hw
        refine ⟨Nat.le_add_right _ _, ?_, hsmall⟩
        unfold Extent.stop
        dsimp only
        omega
    · refine pairwise_cons.mpr ⟨fun w hw => ?_, ?_⟩
      · obtain ⟨rfl, -⟩ := mem_copied hw
        right
        unfold Extent.stop
        dsimp only
        omega
      · unfold copied
        split
        next => exact pairwise_singleton _ _
        next => exact .nil
    · have hle : ((x :: xs).flatMap encode).length ≤ 0x7fffffff :=
        hcopied (_, .bytes ((x :: xs).flatMap encode))
          (by rw [hcells]; exact mem_cons_of_mem _ (mem_singleton.mpr rfl))
      rw [copied_eq hpos hle, hcells]
      rfl

theorem small_le8 (n : Nat) : (Cell.bytes (le 8 n)).Small := by
  show (le 8 n).length ≤ 0x7fffffff
  rw [length_le]
  decide

/-- Every value that is accepted is encoded. -/
theorem updateAttrValue_encodes (h : updateAttrValue abi attrPtr arg = some (ws, len)) :
    Encodes abi arg attrPtr ws len := by
  cases arg with
  | aclTensor _ | aclTensorList _ | other => cases h
  | dataType value =>
    cases h
    exact encodes_single rfl (Nat.le_refl _) (small_le8 _)
  | int value =>
    cases h
    exact encodes_single rfl (Nat.le_refl _) (small_le8 _)
  | float value =>
    cases h
    exact encodes_single rfl (Nat.le_refl _) (small_le8 _)
  | double value =>
    cases h
    exact encodes_single rfl (Nat.le_refl _) (small_le8 _)
  | string value =>
    cases value with
    | none =>
      cases h
      exact encodes_single rfl (by decide) (show 1 ≤ 0x7fffffff by decide)
    | some value =>
      unfold updateAttrValue at h
      dsimp only at h
      split at h
      next => cases h
      next =>
        cases h
        have hlen : (value ++ [0]).length = value.length + 1 := length_append
        refine encodes_copied ?_ ?_ ?_
        · rw [hlen]
          rfl
        · rw [hlen]
          exact le_alignSize _
        · rw [hlen]
          exact Nat.succ_pos _
  | aclScalar value =>
    cases value with
    | none =>
      cases h
      exact encodes_single rfl (Nat.le_refl _) (small_le8 _)
    | some value =>
      cases h
      refine encodes_copied rfl (Nat.le_refl _) ?_
      rw [value.size]
      exact typeSize_pos _
  | intList value =>
    have harray : Encodes abi (.intList value) attrPtr _ _ :=
      encodes_array (fun x => by rw [length_le8]; decide) rfl
    rwa [Option.some.inj h] at harray
  | floatList value =>
    have harray : Encodes abi (.floatList value) attrPtr _ _ :=
      encodes_array (fun x => by rw [length_le]; decide) rfl
    rwa [Option.some.inj h] at harray
  | boolList value =>
    have harray : Encodes abi (.boolList value) attrPtr _ _ :=
      encodes_array (fun x => show 0 < (boolByte x).length from Nat.one_pos) rfl
    rwa [Option.some.inj h] at harray

/-- Where the attributes from `idx` on write: entries of the table, and bytes between the two
positions of `attrPtr`. -/
def attrArea (attrDef n idx lo hi : Nat) (x : Extent) : Prop :=
  (∃ j, idx ≤ j ∧ j < n ∧ x = offsetAt attrDef j) ∨ (lo ≤ x.start ∧ x.stop ≤ hi)

/-- Attribute `idx` of the context is this one. -/
def Holder.HasAttr (abi : GeSizes) (h : Holder) (idx : Nat) (arg : OpArg) : Prop :=
  ∃ off, Stands h.written (offsetAt h.attrDef idx) (.number off) ∧
    ∀ c ∈ arg.attrCells abi, Stands h.written (Extent.shift (h.attrDef + off) c.1) c.2

/-- From one state to the next only these writes are made. -/
def Holder.Adds (h h' : Holder) (area : Extent → Prop) : Prop :=
  ∃ ws, h' = { h with written := h.written ++ ws } ∧ ∀ w ∈ ws, area w.1 ∧ w.2.Small

/-- A write stands if later ones are apart from it. -/
theorem Holder.Adds.stands (hadds : h.Adds h' area) {v : Cell} (hx : Stands h.written x v)
    (hapart : ∀ y, area y → y.Apart x) : Stands h'.written x v := by
  obtain ⟨ws, rfl, hw⟩ := hadds
  exact hx.append fun w hmem => hapart _ (hw w hmem).1

theorem Holder.Adds.trans {h'' : Holder} (hadds : h.Adds h' area) (hadds' : h'.Adds h'' area') :
    h.Adds h'' fun x => area x ∨ area' x := by
  obtain ⟨ws, rfl, hw⟩ := hadds
  obtain ⟨ws', rfl, hw'⟩ := hadds'
  refine ⟨ws ++ ws', by rw [append_assoc], fun w hmem => ?_⟩
  rcases mem_append.mp hmem with hmem | hmem
  · exact ⟨Or.inl (hw w hmem).1, (hw w hmem).2⟩
  · exact ⟨Or.inr (hw' w hmem).1, (hw' w hmem).2⟩

theorem Holder.Adds.mono (hadds : h.Adds h' area) (harea : ∀ x, area x → area' x) :
    h.Adds h' area' := by
  obtain ⟨ws, hws, hw⟩ := hadds
  exact ⟨ws, hws, fun w hmem => ⟨harea _ (hw w hmem).1, (hw w hmem).2⟩⟩

theorem Holder.adds_write {cell : Cell} (harea : area x) (hsmall : cell.Small) :
    h.Adds (h.write x cell) area :=
  ⟨[(x, cell)], rfl, fun w hw => by rw [mem_singleton.mp hw]; exact ⟨harea, hsmall⟩⟩

theorem Holder.Adds.attrDef (hadds : h.Adds h' area) : h'.attrDef = h.attrDef := by
  obtain ⟨ws, rfl, -⟩ := hadds
  rfl

/-- What stands of an attribute in front of `lo` is not touched by those behind. -/
theorem attrArea_apart {attrDef lo hi : Nat} (htable : attrDef + runtimeAttrsDef + 8 * n ≤ lo)
    {j : Nat} (hj : j < idx) (hjn : j < n) {y : Extent} (hy : attrArea attrDef n idx lo hi y) :
    y.Apart (offsetAt attrDef j) := by
  rcases hy with ⟨i, hi, -, rfl⟩ | ⟨hlo, -⟩
  · right
    unfold offsetAt Extent.stop
    dsimp only
    omega
  · right
    unfold offsetAt Extent.stop
    dsimp only
    omega

theorem attrArea_apart_bytes {attrDef lo hi : Nat}
    (hx : attrDef + runtimeAttrsDef + 8 * n ≤ x.start) (hxlo : x.stop ≤ lo) {y : Extent}
    (hy : attrArea attrDef n idx lo hi y) : y.Apart x := by
  rcases hy with ⟨i, -, hn, rfl⟩ | ⟨hlo, -⟩
  · left
    unfold offsetAt Extent.stop
    dsimp only
    omega
  · exact Or.inr (hxlo.trans hlo)

/-- A step over attribute `idx`. -/
theorem attr_step {p p' : Nat} (htable : h.attrDef + runtimeAttrsDef + 8 * n ≤ p) (hidx : idx < n)
    (hok : updateAttrArg abi idx arg (p, h) = (.success, (p', h'))) :
    p ≤ p' ∧ h.Adds h' (attrArea h.attrDef n idx p p') ∧
      (arg.Copied abi → Stands h'.written (offsetAt h.attrDef idx) (.number (p - h.attrDef)) ∧
        ∀ c ∈ arg.attrCells abi, (Extent.shift p c.1).stop ≤ p' ∧
          Stands h'.written (Extent.shift p c.1) c.2) := by
  unfold updateAttrArg at hok
  dsimp only at hok
  split at hok
  next => cases hok
  next =>
    split at hok
    next => cases hok
    next ws len hvalue =>
      obtain ⟨hinside, hapart, hcells⟩ := updateAttrValue_encodes hvalue
      cases hok
      have hoffset : h.Adds (h.write (offsetAt h.attrDef idx) (.number (p - h.attrDef)))
          (attrArea h.attrDef n idx p (p + len)) :=
        Holder.adds_write (Or.inl ⟨idx, Nat.le_refl _, hidx, rfl⟩) trivial
      refine ⟨Nat.le_add_right _ _, ?_, fun hcopied => ⟨?_, fun c hc => ?_⟩⟩
      · have hbytes : (h.write (offsetAt h.attrDef idx) (.number (p - h.attrDef))).Adds _
            (attrArea h.attrDef n idx p (p + len)) :=
          ⟨ws, rfl, fun w hw => ⟨Or.inr ⟨(hinside w hw).1, (hinside w hw).2.1⟩, (hinside w hw).2.2⟩⟩
        exact (hoffset.trans hbytes).mono fun x hx => hx.elim id id
      · -- the data lies behind the offset
        refine (stands_snoc h.written _ _).append fun w hw => ?_
        right
        have hstart := (hinside w hw).1
        unfold offsetAt Extent.stop
        dsimp only
        omega
      · have hmem : (Extent.shift p c.1, c.2) ∈ ws := by
          rw [hcells hcopied]
          exact mem_map_of_mem hc
        exact ⟨(hinside _ hmem).2.1, stands_of_pairwise _ hapart _ hmem⟩

/-- By induction on the attributes: behind each other's data, with their offsets in the table. -/
theorem attrs_done {p p' : Nat} (htable : h.attrDef + runtimeAttrsDef + 8 * n ≤ p)
    (hn : idx + args.length ≤ n)
    (hok : visitBy (updateAttrArg abi) idx args (p, h) = (.success, (p', h'))) :
    p ≤ p' ∧ h.Adds h' (attrArea h.attrDef n idx p p') ∧
      ∀ k arg, args[k]? = some arg → arg.Copied abi →
        ∃ off, h.attrDef + runtimeAttrsDef + 8 * n ≤ h.attrDef + off ∧
          Stands h'.written (offsetAt h.attrDef (idx + k)) (.number off) ∧
          ∀ c ∈ arg.attrCells abi, (Extent.shift (h.attrDef + off) c.1).stop ≤ p' ∧
            Stands h'.written (Extent.shift (h.attrDef + off) c.1) c.2 := by
  induction args generalizing h idx p with
  | nil =>
    cases hok
    exact ⟨Nat.le_refl _, ⟨[], by rw [append_nil], nofun⟩, nofun⟩
  | cons arg args ih =>
    rw [length_cons] at hn
    unfold visitBy at hok
    split at hok
    next s₁ harg =>
      obtain ⟨p₁, h₁⟩ := s₁
      obtain ⟨hle, hadds, hattr⟩ := attr_step htable (by omega) harg
      obtain ⟨hle', hadds', hattrs⟩ := ih (by rw [hadds.attrDef]; omega) (by omega) hok
      rw [hadds.attrDef] at hadds' hattrs
      refine ⟨hle.trans hle', ?_, fun k a ha hcopied => ?_⟩
      · -- the area of the first attribute and that of the others
        refine (hadds.trans hadds').mono fun x hx => ?_
        rcases hx with (⟨j, hj, hjn, hx⟩ | ⟨hlo, hhi⟩) | ⟨j, hj, hjn, hx⟩ | ⟨hlo, hhi⟩
        · exact Or.inl ⟨j, hj, hjn, hx⟩
        · exact Or.inr ⟨hlo, hhi.trans hle'⟩
        · exact Or.inl ⟨j, by omega, hjn, hx⟩
        · exact Or.inr ⟨hle.trans hlo, hhi⟩
      · -- the first attribute stands, since the others write elsewhere
        cases k with
        | zero =>
          cases ha
          obtain ⟨hoff, hcells⟩ := hattr hcopied
          have hp : h.attrDef + (p - h.attrDef) = p := by omega
          refine ⟨p - h.attrDef, by omega, ?_, fun c hc => ?_⟩
          · exact hadds'.stands hoff fun y hy => attrArea_apart (by omega) (by omega) (by omega) hy
          · rw [hp]
            obtain ⟨hstop, hstands⟩ := hcells c hc
            refine ⟨hstop.trans hle', hadds'.stands hstands fun y hy => ?_⟩
            refine attrArea_apart_bytes ?_ hstop hy
            exact htable.trans (Nat.le_add_right _ _)
        | succ k =>
          obtain ⟨off, hoff, hstands, hcells⟩ := hattrs k a ha hcopied
          rw [Nat.add_right_comm] at hstands
          exact ⟨off, hoff, hstands, hcells⟩
    next => cases hok

/-! ## The anchors of the outputs -/

/-- After the step over output `idx` its anchor stands. -/
structure AnchorStep (idx : Nat) (arg : OpArg) (seq : Nat) (h : Holder) (s' : Nat × Holder) :
    Prop where
  next : s'.1 = seq + arg.tensors.length
  adds : h.Adds s'.2 (· = anchorAt h.outputAnchorInfo idx)
  stands : Stands s'.2.written (anchorAt h.outputAnchorInfo idx)
    (.anchor seq.toUInt32 arg.tensors.length.toUInt32)

theorem adds_setAnchor {base start num : Nat} :
    h.Adds (h.setAnchor base idx start num) (· = anchorAt base idx) :=
  Holder.adds_write rfl trivial

theorem Holder.Adds.outputAnchorInfo (hadds : h.Adds h' area) :
    h'.outputAnchorInfo = h.outputAnchorInfo := by
  obtain ⟨ws, rfl, -⟩ := hadds
  rfl

theorem anchorStep_tensor (idx seq : Nat) (h : Holder) (tensor : Option Tensor) :
    AnchorStep idx (.aclTensor tensor) seq h (Holder.updateOutputTensorIr idx tensor (seq, h)) := by
  cases tensor with
  | none => exact ⟨rfl, adds_setAnchor, stands_snoc _ _ _⟩
  | some t => exact ⟨rfl, adds_setAnchor, stands_snoc _ _ _⟩

/-- A list adds an anchor of as many tensors as it has. -/
theorem anchors_list (idx seq : Nat) (h : Holder) (tensors : List (Option Tensor)) :
    (tensors.foldl (fun s t => Holder.updateOutputTensorIr idx t s) (seq, h)).1 =
        seq + (tensors.flatMap Option.toList).length ∧
      h.Adds (tensors.foldl (fun s t => Holder.updateOutputTensorIr idx t s) (seq, h)).2
        (· = anchorAt h.outputAnchorInfo idx) := by
  induction tensors generalizing seq h with
  | nil => exact ⟨rfl, ⟨[], by rw [append_nil]; rfl, nofun⟩⟩
  | cons t tensors ih =>
    have hstep := anchorStep_tensor idx seq h t
    have hseq : (Holder.updateOutputTensorIr idx t (seq, h)).1 = seq + t.toList.length := hstep.next
    obtain ⟨hrest, hadds⟩ := ih (Holder.updateOutputTensorIr idx t (seq, h)).1
      (Holder.updateOutputTensorIr idx t (seq, h)).2
    rw [hstep.adds.outputAnchorInfo] at hadds
    rw [foldl_cons, flatMap_cons, length_append, ← Nat.add_assoc, ← hseq]
    exact ⟨hrest, (hstep.adds.trans hadds).mono fun x hx => hx.elim id id⟩

/-- An argument adds one anchor. -/
theorem anchorStep_arg (idx seq : Nat) (h : Holder) (htensors : arg.IsTensors) :
    AnchorStep idx arg seq h (Holder.updateOutputArgIr idx arg (seq, h)) := by
  cases arg with
  | aclTensor tensor => exact anchorStep_tensor idx seq h tensor
  | aclTensorList tensorList =>
    match tensorList with
    | none => exact ⟨rfl, adds_setAnchor, stands_snoc _ _ _⟩
    | some [] => exact ⟨rfl, adds_setAnchor, stands_snoc _ _ _⟩
    | some (t :: tensors) =>
      obtain ⟨hseq, hadds⟩ := anchors_list idx seq h (t :: tensors)
      unfold Holder.updateOutputArgIr Holder.updateOutputListIr
      dsimp only
      rw [hseq, Nat.add_sub_cancel_left, hadds.outputAnchorInfo]
      refine ⟨rfl, (hadds.trans adds_setAnchor).mono fun x hx => hx.elim id id, ?_⟩
      exact stands_snoc _ _ _
  | dataType _ | int _ | float _ | double _ | string _ | aclScalar _ | intList _ | floatList _
  | boolList _ | other => cases htensors

/-- The anchors from `idx` on are written, one for each output. -/
theorem outputAnchors_done (htensors : ∀ arg ∈ args, arg.IsTensors) (idx seq : Nat) (h : Holder) :
    h.Adds (Holder.updateOutputArgsIr idx args (seq, h)).2
        (fun x => ∃ j, idx ≤ j ∧ x = anchorAt h.outputAnchorInfo j) ∧
      ∀ i arg, args[i]? = some arg → Stands (Holder.updateOutputArgsIr idx args (seq, h)).2.written
          (anchorAt h.outputAnchorInfo (idx + i))
          (.anchor (seq + startOf args i).toUInt32 arg.tensors.length.toUInt32) := by
  induction args generalizing idx seq h with
  | nil => exact ⟨⟨[], by rw [append_nil]; rfl, nofun⟩, nofun⟩
  | cons arg args ih =>
    obtain ⟨harg, hargs⟩ := forall_mem_cons.mp htensors
    have hstep := anchorStep_arg idx seq h harg
    obtain ⟨hadds, hanchors⟩ := ih hargs (idx + 1)
      (Holder.updateOutputArgIr idx arg (seq, h)).1 (Holder.updateOutputArgIr idx arg (seq, h)).2
    rw [hstep.adds.outputAnchorInfo] at hadds hanchors
    unfold Holder.updateOutputArgsIr
    refine ⟨(hstep.adds.trans hadds).mono ?_, fun i a ha => ?_⟩
    · rintro x (hx | ⟨j, hj, hx⟩)
      · exact ⟨idx, Nat.le_refl _, hx⟩
      · exact ⟨j, by omega, hx⟩
    · cases i with
      | zero =>
        cases ha
        refine hadds.stands hstep.stands fun y ⟨j, hj, hy⟩ => ?_
        rw [hy]
        exact anchorAt_apart (by omega)
      | succ i =>
        have hstart : (Holder.updateOutputArgIr idx arg (seq, h)).1 + startOf args i =
            seq + startOf (arg :: args) (i + 1) := by
          rw [hstep.next, Nat.add_assoc, ← startOf_succ]
        have hlater := hanchors i a ha
        rw [hstart, Nat.add_right_comm] at hlater
        exact hlater

end OpBase.ContextHolder
