import OpBase.Indv.KeyBytes
import OpBase.Indv.LaunchArgs
import OpBase.Indv.SlotsFilled

/-!
# The pointers of a launch follow the IR order

The walk over the parameters takes the slots one after the other. It stays in step as long as
it moves over exactly the slots of each parameter, and it does not in three cases. A list
whose first element is null gets an empty pointer and one slot. So does a list without
elements in front of a null slot, though it has no slot at all: whatever comes behind is read
one slot late. In front of a slot that is not null such a list is taken for the list an
earlier launch gave, and moves on by as many slots as that had.

> `pointers_in_ir_order`: if none of this happens, and the null elements of lists are in slots
> that no earlier launch has used, every pointer is the one of its parameter. Unless a list
> that begins with a null element stands behind one without elements, it happens otherwise.

The invariant of the walk is its offset: the slots of the arguments in front. After a late
step everything up to the slot read is null; the first tensor behind would have to be read in
its own place, so there is none.
-/

namespace OpBase.Indv

open List OpBase.Lib
open Option (map_eq_some_iff some.inj)
open ParamType (Admits eq_dynamic_of_admits ne_dynamic_of_admits)

/-! ## What the pointers are to be -/

/-- What lies from an offset on. -/
def At (bytes data : List Byte) (offset : Nat) : Prop := bytes <+: data.drop offset

/-- What the block of a list is to tell of an element: nothing, at no address, if it is null. -/
def elementTensor (e : Option AclTensor) : GertTensor :=
  e.elim Tensors.blankSlot.rt2Tensor (AclTensor.saved .default)

/-- The pointer to a tensor in a slot. -/
def PointsToTensor (isInput : Bool) (data : List Byte) (slot : Nat) (t : GertTensor)
    (ptr : Pointer) : Prop :=
  if isInput && !t.onDevice then ∃ offset, ptr = .copy slot offset ∧ At t.data data offset
  else ptr = .tensor slot t.addr

/-- The pointer to the block of a list. -/
def PointsToBlock (data : List Byte) (elements : List (Option AclTensor)) (ptr : Pointer) : Prop :=
  ∃ offset, ptr = .block offset ∧ At (dynamicBlock (elements.map elementTensor)) data offset

/-- The pointer of a parameter. A list without elements may have an empty pointer or an empty
block. -/
def Points (isInput : Bool) (data : List Byte) (x : Given) (ptr : Pointer) : Prop :=
  match x.2 with
  | .tensor none => ptr = .null
  | .tensor (some t) => PointsToTensor isInput data x.1.startIndex (t.saved .default) ptr
  | .tensorList tensorList =>
    (tensorList.getD [] = [] ∧ ptr = .null) ∨ PointsToBlock data (tensorList.getD []) ptr

/-- What is given for each parameter of an executor. -/
def givenTo (ts : Tensors) (args : List Arg) : List Given := ts.instances.zip args

/-- The launch arguments can be prepared, and have a pointer for each input and each output,
in the order of the IR. -/
def PointersInOrder (inputs outputs : Tensors) (inputArgs outputArgs : List Arg)
    (memory : Nat → Byte) (a : ArgsAddr) : Prop :=
  ∃ a' ptrs ptrs', inputs.prepareIoParamsExt outputs memory false a = some a' ∧
    a'.addr = a.addr ++ ptrs ++ ptrs' ∧
    List.Forall₂ (Points true a'.hostInputData) (givenTo inputs inputArgs) ptrs ∧
    List.Forall₂ (Points false a'.hostInputData) (givenTo outputs outputArgs) ptrs'

/-! ## When they are -/

/-- The slots of some arguments. -/
def slotsOf (params : List Given) : List (Option AclTensor) := params.flatMap fun x => x.2.slots

/-- A slot nothing is read from. -/
def ExtTensor.Blank (t : ExtTensor) : Prop :=
  t.rt2Tensor.storageShape.val = [] ∧ t.rt2Tensor.addr = 0

/-- The walk stays in step. `offset` is the number of slots of the parameters in front. -/
structure InStep (ts : Tensors) (offset : Nat) (params : List Given) : Prop where
  /-- No list begins with a null element. -/
  starts : ∀ x ∈ params, x.1.cfgNum = .dynamic → x.2.slots.head? ≠ some none
  /-- A null element is in a slot without contents. -/
  blanks : ∀ x ∈ params, x.1.cfgNum = .dynamic → ∀ i, x.2.slots[i]? = some none →
    ∀ t, ts.extTensors[x.1.startIndex + i]? = some t → t.Blank
  /-- Behind a list without elements everything is null and there are slots for reading on,
  or a tensor comes next and no elements are left from an earlier launch. -/
  empties : ∀ front x back, params = front ++ x :: back → x.2.slots = [] →
    ((∀ e ∈ slotsOf back, e = none) ∧
      offset + (slotsOf front).length + back.length + 1 ≤ ts.extTensors.length) ∨
    (x.1.num = 0 ∧ ∃ t, (slotsOf back).head? = some (some t))

/-- No list that begins with a null element stands behind one without elements. -/
def NoNullListBehind (params : List Given) : Prop :=
  ∀ front x back, params = front ++ x :: back → x.2.slots = [] →
    ∀ y ∈ back, y.1.cfgNum = .dynamic → y.2.slots.head? ≠ some none

/-! ## Blocks -/

variable {offset : Nat}

theorem At.mono {bytes data data' : List Byte} (h : At bytes data offset) (hle : data <+: data') :
    At bytes data' offset :=
  h.trans (hle.drop offset)

theorem at_append (front bytes back : List Byte) :
    At bytes (front ++ (bytes ++ back)) front.length := by
  unfold At
  rw [drop_left]
  exact prefix_append bytes back

theorem at_end (front bytes : List Byte) : At bytes (front ++ bytes) front.length := by
  unfold At
  rw [drop_left]

theorem PointsToTensor.mono {isInput : Bool} {data data' : List Byte} {slot : Nat}
    {t : GertTensor} {ptr : Pointer} (h : PointsToTensor isInput data slot t ptr)
    (hle : data <+: data') : PointsToTensor isInput data' slot t ptr := by
  unfold PointsToTensor at h ⊢
  split at h
  next hhost =>
    obtain ⟨offset, hptr, hat⟩ := h
    rw [if_pos hhost]
    exact ⟨offset, hptr, hat.mono hle⟩
  next hdevice => rwa [if_neg hdevice]

/-- What a block is about. -/
def GertTensor.place (t : GertTensor) : Shape × UInt64 := (t.storageShape, t.addr)

theorem dynamicBlock_congr {xs ys : List GertTensor}
    (h : xs.map GertTensor.place = ys.map GertTensor.place) :
    dynamicBlock xs = dynamicBlock ys := by
  have hshapes : ∀ zs : List GertTensor, zs.flatMap shapeEntry =
      (zs.map GertTensor.place).flatMap fun p =>
        le 4 p.1.val.length ++ le 4 1 ++ dimBytes p.1.val := by
    intro zs
    rw [flatMap_map]
    rfl
  have haddrs : ∀ zs : List GertTensor, (zs.flatMap fun t => le8 t.addr) =
      (zs.map GertTensor.place).flatMap fun p => le8 p.2 := by
    intro zs
    rw [flatMap_map]
    rfl
  unfold dynamicBlock
  rw [hshapes xs, hshapes ys, haddrs xs, haddrs ys, h]

theorem shapeEntry_inj {x y : GertTensor} {u v : List Byte}
    (h : shapeEntry x ++ u = shapeEntry y ++ v) : x.storageShape = y.storageShape ∧ u = v := by
  unfold shapeEntry at h
  simp only [append_assoc] at h
  obtain ⟨hnum, h⟩ := append_inj h (by rw [length_le, length_le])
  exact dimBytes_inj hnum (append_cancel_left h)

theorem shapes_inj {u v : List Byte} : ∀ {xs ys : List GertTensor}, xs.length = ys.length →
    xs.flatMap shapeEntry ++ u = ys.flatMap shapeEntry ++ v →
    xs.map GertTensor.storageShape = ys.map GertTensor.storageShape ∧ u = v := by
  intro xs
  induction xs with
  | nil =>
    intro ys hlen h
    rw [length_eq_zero_iff.mp hlen.symm] at h ⊢
    exact ⟨rfl, h⟩
  | cons x xs ih =>
    intro ys hlen h
    cases ys with
    | nil => cases hlen
    | cons y ys =>
      rw [flatMap_cons, flatMap_cons, append_assoc, append_assoc] at h
      obtain ⟨hshape, h⟩ := shapeEntry_inj h
      obtain ⟨hshapes, huv⟩ := ih (Nat.succ.inj hlen) h
      exact ⟨by rw [map_cons, map_cons, hshape, hshapes], huv⟩

theorem dynamicBlock_inj {xs ys : List GertTensor} {u v : List Byte}
    (hlen : xs.length = ys.length) (h : dynamicBlock xs ++ u = dynamicBlock ys ++ v) :
    xs.map GertTensor.place = ys.map GertTensor.place := by
  unfold dynamicBlock at h
  simp only [append_assoc] at h
  obtain ⟨-, h⟩ := append_inj h (by rw [length_le8, length_le8])
  obtain ⟨hshapes, h⟩ := shapes_inj hlen h
  obtain ⟨haddrs, -⟩ := append_inj h (by
    rw [length_flatMap_of (fun _ => length_le8 _), length_flatMap_of (fun _ => length_le8 _), hlen])
  have haddrs : xs.map GertTensor.addr = ys.map GertTensor.addr := by
    refine flatMap_inj (f := le8) length_le8 le8_inj.mp ?_ ?_
    · rw [length_map, length_map, hlen]
    · rwa [flatMap_map, flatMap_map]
  have hzip : ∀ zs : List GertTensor, zs.map GertTensor.place =
      (zs.map GertTensor.storageShape).zip (zs.map GertTensor.addr) := by
    intro zs
    rw [zip_map']
    rfl
  rw [hzip, hzip, hshapes, haddrs]

theorem length_shapeEntry (t : GertTensor) :
    8 ≤ (shapeEntry t).length ∧ (shapeEntry t).length ≤ 208 := by
  have := t.storageShape.property
  unfold shapeEntry
  rw [length_append, length_append, length_le, length_le, length_dimBytes]
  omega

/-- The block of an empty list is that of no other list, up to 256 tensors. -/
theorem dynamicBlock_nil_inj {ys : List GertTensor} {u v : List Byte} (hlen : ys.length ≤ 256)
    (h : dynamicBlock [] ++ u = dynamicBlock ys ++ v) : ys = [] := by
  have hbounds : ∀ zs : List GertTensor, 8 * zs.length ≤ (zs.flatMap shapeEntry).length ∧
      (zs.flatMap shapeEntry).length ≤ 208 * zs.length := by
    intro zs
    induction zs with
    | nil => exact ⟨Nat.le_refl _, Nat.le_refl _⟩
    | cons z zs ih =>
      have := length_shapeEntry z
      rw [flatMap_cons, length_append, length_cons]
      omega
  have hys := hbounds ys
  unfold dynamicBlock at h
  simp only [append_assoc] at h
  obtain ⟨hoffset, -⟩ := append_inj h (by rw [length_le8, length_le8])
  have hoffset := congrArg UInt64.toNat (le8_inj.mp hoffset)
  rw [flatMap_nil, length_nil] at hoffset
  simp only [Nat.toUInt64, UInt64.toNat_ofNat'] at hoffset
  apply length_eq_zero_iff.mp
  omega

/-! ## One parameter -/

variable {ts : Tensors} {opt : FormatCheckOption} {memory : Nat → Byte} {isInput : Bool}
  {params rest : List Given} {p : ParamInstance} {a a' : ArgsAddr} {j : Nat} {t : GertTensor}
  {ptr : Pointer} {data : List Byte}

namespace Tensors

theorem slot_of_content {c : Option GertTensor} (h : ts.contents[j]? = some c) :
    ∃ slot, ts.extTensors[j]? = some slot ∧ slot.content = c := by
  unfold contents at h
  rw [getElem?_map] at h
  exact map_eq_some_iff.mp h

variable {slot : ExtTensor}

theorem isNull_of_content : slot.content = none ↔ slot.isNull = true := by
  unfold ExtTensor.content
  split
  next h => exact iff_of_true rfl h
  next h => exact iff_of_false nofun h

theorem rt2Tensor_of_content (h : slot.content = some t) :
    slot.isNull = false ∧ slot.rt2Tensor = t := by
  unfold ExtTensor.content at h
  split at h
  next => cases h
  next hnull => exact ⟨eq_false_of_ne_true hnull, some.inj h⟩

theorem prepareParam_outside (h : ts.contents[j]? = none) :
    ts.prepareParam memory isInput false (j, a) p = none := by
  have hslot : ts.extTensors[j]? = none := by
    unfold contents at h
    rw [getElem?_map] at h
    exact Option.map_eq_none_iff.mp h
  unfold prepareParam
  simp only [hslot]

theorem prepareParam_null (h : ts.contents[j]? = some none) :
    ts.prepareParam memory isInput false (j, a) p = some (j + 1, a.push .null) := by
  obtain ⟨slot, hslot, hcontent⟩ := slot_of_content h
  unfold prepareParam
  simp only [hslot, isNull_of_content.mp hcontent, if_true]
  rfl

/-- The arguments are written on: one pointer, and what it points to. -/
structure Extends (a a' : ArgsAddr) (ptr : Pointer) : Prop where
  addr : a'.addr = a.addr ++ [ptr]
  hostInputData : a.hostInputData <+: a'.hostInputData

theorem prepareParam_dynamic (h : ts.contents[j]? = some (some t)) (hp : p.cfgNum = .dynamic) :
    ts.prepareParam memory isInput false (j, a) p =
      (ts.encodeDynamicTensors p a).map fun a' => (j + p.num, a') := by
  obtain ⟨slot, hslot, hcontent⟩ := slot_of_content h
  obtain ⟨hnull, -⟩ := rt2Tensor_of_content hcontent
  unfold prepareParam
  simp only [hslot, hnull, Bool.false_eq_true, if_false, if_neg (not_not.mpr hp)]
  cases ts.encodeDynamicTensors p a with
  | none => rfl
  | some a' => rfl

variable {slots : List ExtTensor}

theorem encodeDynamicTensors_of (a : ArgsAddr) (h : ts.ownSlots p = some slots) :
    ∃ a', ts.encodeDynamicTensors p a = some a' ∧ Extends a a' (.block a.hostInputData.length) ∧
      a'.hostInputData = a.hostInputData ++ dynamicBlock (slots.map ExtTensor.rt2Tensor) := by
  unfold encodeDynamicTensors
  rw [h]
  exact ⟨_, rfl, ⟨rfl, prefix_append _ _⟩, rfl⟩

section

variable (memory : Nat → Byte) (isInput : Bool) (a : ArgsAddr) (h : ts.contents[j]? = some (some t))
include h

theorem prepareParam_single (hp : p.cfgNum ≠ .dynamic) :
    ∃ a' ptr, ts.prepareParam memory isInput false (j, a) p = some (j + 1, a') ∧
      Extends a a' ptr ∧ PointsToTensor isInput a'.hostInputData j t ptr := by
  obtain ⟨slot, hslot, hcontent⟩ := slot_of_content h
  obtain ⟨hnull, ht⟩ := rt2Tensor_of_content hcontent
  have hprepare : ts.prepareParam memory isInput false (j, a) p =
      if isInput && !t.onDevice then some (j + 1, a.encodeHostInput memory j t)
      else some (j + 1, a.push (.tensor j t.addr)) := by
    unfold prepareParam
    simp only [hslot, hnull, ht, Bool.false_eq_true, if_false, if_pos hp]
  unfold PointsToTensor
  rw [hprepare]
  by_cases hhost : (isInput && !t.onDevice) = true
  · simp only [if_pos hhost]
    exact ⟨_, .copy j a.hostInputData.length, rfl, ⟨rfl, prefix_append _ _⟩, _, rfl,
      at_append _ _ _⟩
  · simp only [if_neg hhost]
    exact ⟨_, .tensor j t.addr, rfl, ⟨rfl, prefix_rfl⟩, rfl⟩

theorem prepareParam_block (hp : p.cfgNum = .dynamic) (hslots : ts.ownSlots p = some slots) :
    ∃ a', ts.prepareParam memory isInput false (j, a) p = some (j + p.num, a') ∧
      Extends a a' (.block a.hostInputData.length) ∧
      a'.hostInputData = a.hostInputData ++ dynamicBlock (slots.map ExtTensor.rt2Tensor) := by
  obtain ⟨a', ha', hext, hdata⟩ := encodeDynamicTensors_of a hslots
  exact ⟨a', by rw [prepareParam_dynamic h hp, ha']; rfl, hext, hdata⟩

end

variable {j' : Nat}

/-- One parameter adds one pointer to the arguments. -/
theorem prepareParam_extends (h : ts.prepareParam memory isInput false (j, a) p = some (j', a')) :
    ∃ ptr, Extends a a' ptr := by
  cases hc : ts.contents[j]? with
  | none =>
    rw [prepareParam_outside hc] at h
    cases h
  | some c =>
    cases c with
    | none =>
      rw [prepareParam_null hc] at h
      cases h
      exact ⟨.null, rfl, prefix_rfl⟩
    | some t =>
      by_cases hp : p.cfgNum = .dynamic
      · rw [prepareParam_dynamic hc hp] at h
        cases hslots : ts.ownSlots p with
        | none =>
          unfold encodeDynamicTensors at h
          rw [hslots] at h
          cases h
        | some slots =>
          obtain ⟨a₁, ha₁, hext, -⟩ := encodeDynamicTensors_of a hslots
          rw [ha₁] at h
          cases h
          exact ⟨.block a.hostInputData.length, hext⟩
      · obtain ⟨a₁, ptr, ha₁, hext, -⟩ :=
          prepareParam_single memory isInput a hc hp
        rw [ha₁] at h
        cases h
        exact ⟨ptr, hext⟩

/-! ## The walk -/

/-- The loop over some parameters. -/
def walk (ts : Tensors) (memory : Nat → Byte) (isInput : Bool) (params : List Given)
    (state : Nat × ArgsAddr) : Option (Nat × ArgsAddr) :=
  (params.map Prod.fst).foldlM (ts.prepareParam memory isInput false) state

variable {x : Given} {front : List Given} {e : Option AclTensor}
  {elements : List (Option AclTensor)}

theorem walk_cons {state : Nat × ArgsAddr} :
    ts.walk memory isInput (x :: rest) state =
      (ts.prepareParam memory isInput false state x.1).bind (ts.walk memory isInput rest) := rfl

theorem walk_extends : ∀ {rest : List Given} {j : Nat} {a : ArgsAddr},
    ts.walk memory isInput rest (j, a) = some (j', a') →
    (∃ ptrs, a'.addr = a.addr ++ ptrs ∧ ptrs.length = rest.length) ∧
      a.hostInputData <+: a'.hostInputData := by
  intro rest
  induction rest with
  | nil =>
    intro j a h
    cases h
    exact ⟨⟨[], (append_nil _).symm, rfl⟩, prefix_rfl⟩
  | cons x rest ih =>
    intro j a h
    rw [walk_cons] at h
    obtain ⟨⟨j₁, a₁⟩, hstep, hrest⟩ := Option.bind_eq_some_iff.mp h
    obtain ⟨ptr, haddr, hdata⟩ := prepareParam_extends hstep
    obtain ⟨⟨ptrs, haddrs, hlen⟩, hdata'⟩ := ih hrest
    exact ⟨⟨ptr :: ptrs, by rw [haddrs, haddr, append_assoc]; rfl,
      congrArg Nat.succ hlen⟩, hdata.trans hdata'⟩

/-- The walk comes to its end, and every parameter has its pointer in what is there when all
is written. -/
def WalksRight (ts : Tensors) (memory : Nat → Byte) (isInput : Bool) (data : List Byte)
    (params : List Given) (j : Nat) (a : ArgsAddr) : Prop :=
  ∃ j' a' ptrs, ts.walk memory isInput params (j, a) = some (j', a') ∧
    a'.addr = a.addr ++ ptrs ∧ a'.hostInputData <+: data ∧
    List.Forall₂ (Points isInput data) params ptrs

theorem walksRight_cons {a₁ : ArgsAddr}
    (hstep : ts.prepareParam memory isInput false (j, a) x.1 = some (j', a₁))
    (hext : Extends a a₁ ptr) :
    ts.WalksRight memory isInput data (x :: rest) j a ↔
      Points isInput data x ptr ∧ ts.WalksRight memory isInput data rest j' a₁ := by
  constructor
  · intro ⟨jl, al, ptrs, hwalk, haddr, hdata, hpoints⟩
    rw [walk_cons, hstep, Option.bind_some] at hwalk
    obtain ⟨⟨ptrs', haddr', -⟩, -⟩ := walk_extends hwalk
    rw [haddr', hext.addr, append_assoc] at haddr
    cases append_cancel_left haddr
    cases hpoints with
    | cons hfirst hrest => exact ⟨hfirst, jl, al, ptrs', hwalk, haddr', hdata, hrest⟩
  · intro ⟨hfirst, jl, al, ptrs, hwalk, haddr, hdata, hrest⟩
    refine ⟨jl, al, ptr :: ptrs, ?_, ?_, hdata, List.Forall₂.cons hfirst hrest⟩
    · rw [walk_cons, hstep]
      exact hwalk
    · rw [haddr, hext.addr, append_assoc]
      rfl

/-! ## The slots of the arguments -/

theorem flat_eq (params : List Given) :
    flat opt params = (slotsOf params).map (Option.map (·.saved opt)) := by
  unfold flat slotsOf
  rw [map_flatMap]
  rfl

theorem length_flat (opt : FormatCheckOption) (params : List Given) :
    (flat opt params).length = (slotsOf params).length := by
  rw [flat_eq, length_map]

/-- Behind the slots of the first parameters there are those of the others, and empty ones. -/
theorem Filled.behind (h : Filled opt ts params) (hsplit : params = front ++ rest) :
    ∃ m, ts.contents.drop (slotsOf front).length = flat opt rest ++ List.replicate m none ∧
      (slotsOf front).length + (slotsOf rest).length + m = ts.extTensors.length := by
  obtain ⟨m, hm⟩ := h.contents
  have hflat : flat opt params = flat opt front ++ flat opt rest := by
    rw [hsplit]
    exact flatMap_append
  refine ⟨m, ?_, ?_⟩
  · rw [hm, hflat, ← length_flat opt, append_assoc, drop_left]
  · have := congrArg List.length hm
    rw [length_contents, hflat, length_append, length_append,
      length_replicate, length_flat, length_flat] at this
    exact this.symm

/-- The first slot behind them is that of the next parameter's first tensor. -/
theorem Filled.first (h : Filled opt ts params) (hsplit : params = front ++ x :: rest)
    {es : List (Option AclTensor)} (hslots : x.2.slots = e :: es) :
    ts.contents[(slotsOf front).length]? = some (e.map (·.saved opt)) := by
  obtain ⟨m, hm, -⟩ := h.behind hsplit
  have hhead := congrArg List.head? hm
  rw [head?_drop] at hhead
  rw [hhead]
  show ((flat opt (x :: rest)) ++ _).head? = _
  unfold flat Arg.contents
  rw [flatMap_cons, hslots]
  rfl

theorem Filled.admits (h : Filled opt ts params) : ∀ x ∈ params, x.1.cfgNum.Admits x.2 := by
  intro x hx
  obtain ⟨front, back, hsplit⟩ := append_of_mem hx
  exact (h.known front x back hsplit).admits

theorem Known.dynamic (h : Known offset x) (hempty : x.2.slots = []) :
    x.1.cfgNum = .dynamic ∧ ∃ l, x.2 = .tensorList l ∧ l.getD [] = [] := by
  obtain ⟨p, a⟩ := x
  cases a with
  | tensor t => cases hempty
  | tensorList l => exact ⟨eq_dynamic_of_admits h.admits, l, rfl, hempty⟩

/-- The slots that a dynamic parameter reads are those of its tensors. -/
theorem Filled.ownSlots (h : Filled opt ts params) (hsplit : params = front ++ x :: rest)
    (hne : x.2.slots ≠ []) (hp : x.1.cfgNum = .dynamic) :
    ∃ slots, ts.ownSlots x.1 = some slots ∧
      slots.map ExtTensor.content = x.2.slots.map (Option.map (·.saved opt)) ∧
      ∀ i, i < slots.length → slots[i]? = ts.extTensors[x.1.startIndex + i]? := by
  have hknown := h.known front x rest hsplit
  have hstart := hknown.starts hne
  have hcount := hknown.counts hp hne
  rw [length_flat] at hstart
  obtain ⟨m, hm, hlen⟩ := h.behind hsplit
  have hslots : (slotsOf (x :: rest)).length = x.2.slots.length + (slotsOf rest).length := by
    unfold slotsOf
    rw [flatMap_cons, length_append]
  refine ⟨(ts.extTensors.drop x.1.startIndex).take x.1.num, if_pos (Or.inr (by omega)), ?_, ?_⟩
  · have htake := congrArg (List.take x.2.slots.length) hm
    rw [map_take, map_drop, hstart, hcount]
    refine htake.trans ?_
    unfold flat Arg.contents
    rw [flatMap_cons, append_assoc, take_left' (by rw [length_map])]
  · intro i hi
    rw [length_take] at hi
    rw [getElem?_take_of_lt (by omega), getElem?_drop]

theorem place_eq_iff (h : slot.content = e.map (·.saved opt)) :
    slot.rt2Tensor.place = (elementTensor e).place ↔ (e = none → slot.Blank) := by
  cases e with
  | none =>
    constructor
    · intro heq _
      obtain ⟨hshape, haddr⟩ := Prod.ext_iff.mp heq
      exact ⟨congrArg Subtype.val hshape, haddr⟩
    · intro hblank
      obtain ⟨hshape, haddr⟩ := hblank rfl
      exact Prod.ext (Subtype.ext hshape) haddr
  | some t =>
    obtain ⟨-, ht⟩ := rt2Tensor_of_content h
    rw [ht]
    exact iff_of_true rfl nofun

/-- The pointers of a list are those of its tensors just when the slots of the missing ones are
blank. -/
theorem places_eq_iff : ∀ {slots : List ExtTensor},
    slots.map ExtTensor.content = elements.map (Option.map (·.saved opt)) →
    ((slots.map ExtTensor.rt2Tensor).map GertTensor.place =
        (elements.map elementTensor).map GertTensor.place ↔
      ∀ i : Nat, elements[i]? = some none → ∀ t : ExtTensor, slots[i]? = some t → t.Blank) := by
  induction elements with
  | nil =>
    intro slots h
    rw [map_nil, map_eq_nil_iff] at h
    subst h
    exact iff_of_true rfl nofun
  | cons e elements ih =>
    intro slots h
    cases slots with
    | nil => cases h
    | cons slot slots =>
      obtain ⟨hhead, htail⟩ := List.cons.inj h
      simp only [map_cons, List.cons.injEq, place_eq_iff hhead, ih htail]
      constructor
      · intro ⟨hfirst, hrest⟩ i hi t ht
        cases i with
        | zero =>
          cases ht
          exact hfirst (some.inj hi)
        | succ i => exact hrest i hi t ht
      · intro hall
        exact ⟨fun he => hall 0 (congrArg some he) slot rfl, fun i => hall (i + 1)⟩

/-! ## In step -/

theorem length_slotsOf_cons (x : Given) (params : List Given) :
    (slotsOf (x :: params)).length = x.2.slots.length + (slotsOf params).length := by
  unfold slotsOf
  rw [flatMap_cons, length_append]

theorem mem_slotsOf_cons {params : List Given} :
    e ∈ slotsOf (x :: params) ↔ e ∈ x.2.slots ∨ e ∈ slotsOf params := by
  unfold slotsOf
  rw [flatMap_cons, mem_append]

theorem length_slotsOf_snoc (params : List Given) (x : Given) :
    (slotsOf (params ++ [x])).length = (slotsOf params).length + x.2.slots.length := by
  unfold slotsOf
  rw [flatMap_append, flatMap_singleton, length_append]

/-- The walk over one parameter more. -/
theorem inStep_cons :
    InStep ts offset (x :: rest) ↔
      (x.1.cfgNum = .dynamic → x.2.slots.head? ≠ some none) ∧
      (x.1.cfgNum = .dynamic → ∀ i, x.2.slots[i]? = some none →
        ∀ t, ts.extTensors[x.1.startIndex + i]? = some t → t.Blank) ∧
      (x.2.slots = [] → ((∀ e ∈ slotsOf rest, e = none) ∧
          offset + rest.length + 1 ≤ ts.extTensors.length) ∨
        (x.1.num = 0 ∧ ∃ t, (slotsOf rest).head? = some (some t))) ∧
      InStep ts (offset + x.2.slots.length) rest := by
  constructor
  · intro h
    refine ⟨h.starts x mem_cons_self, h.blanks x mem_cons_self, fun hempty => ?_,
      fun y hy => h.starts y (mem_cons_of_mem x hy),
      fun y hy => h.blanks y (mem_cons_of_mem x hy), fun front y back hsplit hempty => ?_⟩
    · exact h.empties [] x rest rfl hempty
    · have := h.empties (x :: front) y back (by rw [hsplit]; rfl) hempty
      rwa [length_slotsOf_cons, ← Nat.add_assoc] at this
  · intro ⟨hstart, hblank, hempty, htail⟩
    refine ⟨?_, ?_, fun front y back hsplit hslots => ?_⟩
    · intro y hy
      rcases mem_cons.mp hy with rfl | hy
      · exact hstart
      · exact htail.starts y hy
    · intro y hy
      rcases mem_cons.mp hy with rfl | hy
      · exact hblank
      · exact htail.blanks y hy
    · cases front with
      | nil =>
        cases hsplit
        exact hempty hslots
      | cons z front =>
        cases hsplit
        rw [length_slotsOf_cons, ← Nat.add_assoc]
        exact htail.empties front y back rfl hslots

theorem inStep_nil : InStep ts offset [] := by
  refine ⟨nofun, nofun, fun front x back hsplit => ?_⟩
  cases front with
  | nil | cons _ _ => cases hsplit

/-- The walk comes to its end; what is written afterwards does not matter. -/
def Walks (ts : Tensors) (memory : Nat → Byte) (isInput : Bool) (params : List Given) (j : Nat)
    (a : ArgsAddr) : Prop :=
  ∃ j' a', ts.walk memory isInput params (j, a) = some (j', a') ∧
    ∀ data, a'.hostInputData <+: data → ts.WalksRight memory isInput data params j a

theorem walks_nil : ts.Walks memory isInput [] j a :=
  ⟨j, a, rfl, fun _ hdata => ⟨j, a, [], rfl, (append_nil _).symm, hdata, .nil⟩⟩

theorem Walks.cons {a₁ : ArgsAddr} (h : ts.Walks memory isInput rest j' a₁)
    (hstep : ts.prepareParam memory isInput false (j, a) x.1 = some (j', a₁))
    (hext : Extends a a₁ ptr)
    (hpoints : ∀ data, a₁.hostInputData <+: data → Points isInput data x ptr) :
    ts.Walks memory isInput (x :: rest) j a := by
  obtain ⟨jl, al, hwalk, hright⟩ := h
  refine ⟨jl, al, ?_, fun data hdata => ?_⟩
  · rw [walk_cons, hstep]
    exact hwalk
  · exact (walksRight_cons hstep hext).mpr
      ⟨hpoints data ((walk_extends hwalk).2.trans hdata), hright data hdata⟩

/-- Nothing is given. -/
def Absent (x : Given) : Prop := ∀ e ∈ x.2.slots, e = none ∧ x.1.cfgNum ≠ .dynamic

theorem points_null (h : Absent x) (hadmits : x.1.cfgNum.Admits x.2) :
    Points isInput data x .null := by
  obtain ⟨p, arg⟩ := x
  cases arg with
  | tensor t =>
    cases t with
    | none => exact rfl
    | some t => exact absurd (h _ mem_cons_self).1 nofun
  | tensorList l =>
    refine Or.inl ⟨?_, rfl⟩
    cases hl : l.getD [] with
    | nil => rfl
    | cons e es =>
      have hmem : e ∈ (Arg.tensorList l).slots := by
        rw [show (Arg.tensorList l).slots = e :: es from hl]
        exact mem_cons_self
      exact absurd (eq_dynamic_of_admits hadmits) (h e hmem).2

theorem walks_null : ∀ {rest : List Given} {j : Nat} {a : ArgsAddr},
    (∀ x ∈ rest, Absent x ∧ x.1.cfgNum.Admits x.2) →
    (∀ i < rest.length, ts.contents[j + i]? = some none) →
    ts.Walks memory isInput rest j a := by
  intro rest
  induction rest with
  | nil =>
    intro j a _ _
    exact walks_nil
  | cons x rest ih =>
    intro j a habsent hnull
    have hstep : ts.prepareParam memory isInput false (j, a) x.1 = _ :=
      prepareParam_null (hnull 0 (Nat.succ_pos _))
    refine (ih (fun y hy => habsent y (mem_cons_of_mem x hy)) fun i hi => ?_).cons hstep
      ⟨rfl, prefix_rfl⟩ fun data _ => ?_
    · have := hnull (i + 1) (Nat.succ_lt_succ hi)
      rwa [Nat.add_right_comm, Nat.add_assoc]
    · obtain ⟨hx, hadmits⟩ := habsent x mem_cons_self
      exact points_null hx hadmits

theorem getElem?_nulls {xs : List (Option GertTensor)} {m i : Nat} (hall : ∀ c ∈ xs, c = none)
    (hi : i < xs.length + m) : (xs ++ List.replicate m none)[i]? = some none := by
  have hlen : i < (xs ++ List.replicate m none).length := by
    rw [length_append, length_replicate]
    exact hi
  rw [getElem?_eq_getElem hlen]
  congr 1
  rcases mem_append.mp (getElem_mem hlen) with h | h
  · exact hall _ h
  · exact eq_of_mem_replicate h

/-- In step, every pointer is right. -/
theorem walks_of_inStep (hfilled : Filled opt ts params) : ∀ {rest front : List Given}
    {a : ArgsAddr}, params = front ++ rest → InStep ts (slotsOf front).length rest →
    ts.Walks memory isInput rest (slotsOf front).length a := by
  intro rest
  induction rest with
  | nil =>
    intro front a _ _
    exact walks_nil
  | cons x rest ih =>
    intro front a hsplit hstep
    obtain ⟨hstart, hblank, hempty, htail⟩ := inStep_cons.mp hstep
    have hknown := hfilled.known front x rest hsplit
    have hsplit' : params = (front ++ [x]) ++ rest := by rw [hsplit, append_assoc]; rfl
    rw [← length_slotsOf_snoc] at htail
    have ih := fun a => ih (a := a) hsplit' htail
    cases hslots : x.2.slots with
    | nil =>
      obtain ⟨hp, l, hl, hnil⟩ := hknown.dynamic hslots
      obtain ⟨m, hm, hlen⟩ := hfilled.behind hsplit
      rw [length_slotsOf_cons, hslots, length_nil, Nat.zero_add] at hlen
      rw [length_slotsOf_snoc, hslots, length_nil, Nat.add_zero] at ih
      have hflat : flat opt (x :: rest) = flat opt rest := by
        rw [flat_eq, flat_eq]
        unfold slotsOf
        rw [flatMap_cons, hslots]
        rfl
      rcases hempty hslots with ⟨hnull, hroom⟩ | ⟨hnum, t, hnext⟩
      · -- Everything behind is null, and nothing is given for it.
        refine walks_null (fun y hy => ⟨fun e he => ?_, ?_⟩) fun i hi => ?_
        · rcases mem_cons.mp hy with rfl | hy
          · rw [hslots] at he
            cases he
          · have hnone := fun e he => hnull e (mem_flatMap.mpr ⟨y, hy, he⟩)
            refine ⟨hnone e he, fun hdyn => htail.starts y hy hdyn ?_⟩
            cases hys : y.2.slots with
            | nil => rw [hys] at he; cases he
            | cons e' es =>
              rw [hnone e' (by rw [hys]; exact mem_cons_self)]
              rfl
        · exact hfilled.admits y (by rw [hsplit]; exact mem_append_right front hy)
        · rw [← getElem?_drop, hm, hflat]
          refine getElem?_nulls (fun c hc => ?_) ?_
          · rw [flat_eq] at hc
            obtain ⟨e, he, rfl⟩ := mem_map.mp hc
            rw [hnull e he]
            rfl
          · rw [length_cons] at hi
            rw [length_flat]
            omega
      · -- An empty block, in front of a tensor.
        have hcontent : ts.contents[(slotsOf front).length]? = some (some (t.saved opt)) := by
          rw [← head?_drop, hm, hflat, flat_eq, head?_append, head?_map, hnext]
          rfl
        have hown : ts.ownSlots x.1 = some [] := by
          unfold Tensors.ownSlots
          rw [if_pos (Or.inl hnum), hnum, take_zero]
        obtain ⟨a₁, hstep, hext, hdata⟩ :=
          prepareParam_block memory isInput a hcontent hp hown
        rw [hnum, Nat.add_zero] at hstep
        refine (ih a₁).cons hstep hext fun data hle => ?_
        unfold Points
        rw [hl]
        refine Or.inr ⟨_, rfl, At.mono ?_ hle⟩
        rw [hdata, hnil]
        exact at_end _ _
    | cons e es =>
      have hfirst := hfilled.first hsplit hslots
      rw [length_slotsOf_snoc, hslots] at ih
      have hoffset := hknown.starts (by rw [hslots]; exact cons_ne_nil e es)
      rw [length_flat] at hoffset
      obtain ⟨p, arg⟩ := x
      cases arg with
      | tensor tensor =>
        obtain ⟨rfl, rfl⟩ := List.cons.inj hslots
        cases tensor with
        | none =>
          exact (ih _).cons (prepareParam_null hfirst) ⟨rfl, prefix_rfl⟩ fun _ _ => rfl
        | some t =>
          obtain ⟨a₁, ptr, hstep, hext, hpoints⟩ :=
            prepareParam_single memory isInput a hfirst
              (ne_dynamic_of_admits hknown.admits)
          refine (ih a₁).cons hstep hext fun data hle => ?_
          show PointsToTensor isInput data p.startIndex (t.saved opt) ptr
          rw [hoffset]
          exact hpoints.mono hle
      | tensorList l =>
        have hp := eq_dynamic_of_admits hknown.admits
        have hne : (p, Arg.tensorList l).2.slots ≠ [] := by
          rw [hslots]
          exact cons_ne_nil e es
        cases e with
        | none => exact absurd (by rw [hslots]; rfl) (hstart hp)
        | some t =>
          obtain ⟨slots, hown, hmap, hget⟩ := hfilled.ownSlots hsplit hne hp
          obtain ⟨a₁, hstep, hext, hdata⟩ :=
            prepareParam_block memory isInput a hfirst hp hown
          rw [show p.num = (some t :: es).length from hslots ▸ hknown.counts hp hne] at hstep
          refine (ih a₁).cons hstep hext fun data hle => Or.inr ⟨_, rfl, At.mono ?_ hle⟩
          have hplaces := (places_eq_iff hmap).mpr fun i hi slot hslot =>
            hblank hp i hi slot ((hget i (List.getElem?_eq_some_iff.mp hslot).1).symm.trans hslot)
          rw [hdata, dynamicBlock_congr hplaces]
          exact at_end _ _

/-! ## Out of step -/

theorem WalksRight.written (h : ts.WalksRight memory isInput data rest j a) :
    a.hostInputData <+: data := by
  obtain ⟨j', a', ptrs, hwalk, -, hdata, -⟩ := h
  exact (walk_extends hwalk).2.trans hdata

theorem WalksRight.inside (h : ts.WalksRight memory isInput data (x :: rest) j a) :
    ∃ c, ts.contents[j]? = some c := by
  obtain ⟨j', a', ptrs, hwalk, -⟩ := h
  cases hc : ts.contents[j]? with
  | some c => exact ⟨c, rfl⟩
  | none =>
    rw [walk_cons, prepareParam_outside hc] at hwalk
    cases hwalk

theorem block_read {tensors : List GertTensor}
    (h : PointsToBlock data elements (.block a.hostInputData.length))
    (hdata : a'.hostInputData = a.hostInputData ++ dynamicBlock tensors)
    (hle : a'.hostInputData <+: data) :
    ∃ u v, dynamicBlock (elements.map elementTensor) ++ u = dynamicBlock tensors ++ v := by
  obtain ⟨offset, hoffset, u, hu⟩ := h
  cases hoffset
  obtain ⟨v, hv⟩ := hle
  refine ⟨u, v, ?_⟩
  rw [hu, ← hv, hdata, append_assoc, drop_left]

/-- An empty list in front of a tensor is walked right only if its parameter has no slots. -/
theorem num_eq_zero (hsizes : x.1.num ≤ dynamicParamDefNum)
    (hc : ts.contents[j]? = some (some t)) (hp : x.1.cfgNum = .dynamic)
    {l : Option (List (Option AclTensor))} (hl : x.2 = .tensorList l) (hnil : l.getD [] = [])
    (h : ts.WalksRight memory isInput data (x :: rest) j a) :
    x.1.num = 0 ∧ ∃ a₁, ts.WalksRight memory isInput data rest j a₁ := by
  cases hown : ts.ownSlots x.1 with
  | none =>
    obtain ⟨j', a', ptrs, hwalk, -⟩ := h
    rw [walk_cons, prepareParam_dynamic hc hp] at hwalk
    unfold encodeDynamicTensors at hwalk
    rw [hown] at hwalk
    cases hwalk
  | some slots =>
    obtain ⟨a₁, hstep, hext, hdata⟩ :=
      prepareParam_block memory isInput a hc hp hown
    obtain ⟨hpoints, hrest⟩ := (walksRight_cons hstep hext).mp h
    unfold Points at hpoints
    rw [hl] at hpoints
    have hblock := hpoints.resolve_left fun hnull => nomatch hnull.2
    obtain ⟨u, v, huv⟩ := block_read hblock hdata hrest.written
    rw [hnil] at huv
    -- the step takes as many slots as the parameter declares
    have hlength : slots.length = x.1.num := by
      unfold Tensors.ownSlots at hown
      split at hown
      next hroom =>
        cases hown
        rw [length_take, length_drop]
        omega
      next => cases hown
    have hslots := dynamicBlock_nil_inj (by rw [length_map, hlength]; exact hsizes) huv
    rw [map_eq_nil_iff] at hslots
    have hzero : x.1.num = 0 := by rw [← hlength, hslots]; rfl
    rw [hzero, Nat.add_zero] at hrest
    exact ⟨hzero, a₁, hrest⟩

theorem length_slotsOf_of_nil (front : List Given) (hslots : x.2.slots = []) :
    (slotsOf (front ++ [x])).length = (slotsOf front).length := by
  rw [length_slotsOf_snoc, hslots, length_nil, Nat.add_zero]

/-- If only missing tensors follow, and there are slots for them, the walk is in step. -/
theorem inStep_of_nulls : ∀ {rest : List Given} {offset : Nat},
    (∀ x ∈ rest, x.1.cfgNum.Admits x.2) →
    (∀ x ∈ rest, x.1.cfgNum = .dynamic → x.2.slots.head? ≠ some none) →
    (∀ e ∈ slotsOf rest, e = none) → offset + rest.length ≤ ts.extTensors.length →
    InStep ts offset rest := by
  intro rest
  induction rest with
  | nil =>
    intro offset _ _ _ _
    exact inStep_nil
  | cons x rest ih =>
    intro offset hadmits hstarts hnone hroom
    rw [length_cons] at hroom
    have hrest : ∀ e ∈ slotsOf rest, e = none := fun e he =>
      hnone e (mem_slotsOf_cons.mpr (Or.inr he))
    -- a dynamic parameter does not start with a missing tensor, so it has none
    have hempty : x.1.cfgNum = .dynamic → x.2.slots = [] := by
      intro hp
      cases hslots : x.2.slots with
      | nil => rfl
      | cons e es =>
        have he := hnone e (mem_slotsOf_cons.mpr (Or.inl (by rw [hslots]; exact mem_cons_self)))
        exact absurd (by rw [hslots, he]; rfl) (hstarts x mem_cons_self hp)
    have hlength : x.2.slots.length ≤ 1 := by
      have hx := hadmits x mem_cons_self
      obtain ⟨p, arg⟩ := x
      cases arg with
      | tensor tensor => exact Nat.le_refl 1
      | tensorList l =>
        rw [hempty (eq_dynamic_of_admits hx)]
        exact Nat.zero_le 1
    refine inStep_cons.mpr ⟨hstarts x mem_cons_self, ?_, fun _ => Or.inl ⟨hrest, by omega⟩,
      ih (fun y hy => hadmits y (mem_cons_of_mem x hy))
        (fun y hy => hstarts y (mem_cons_of_mem x hy)) hrest (by omega)⟩
    intro hp i hi
    rw [hempty hp] at hi
    cases hi

section

variable (hfilled : Filled opt ts params)
  (hsizes : ∀ x ∈ params, x.1.cfgNum = .dynamic → x.1.num ≤ dynamicParamDefNum)
include hfilled hsizes

/-- Once a slot is read late, and all is null up to there, no tensor comes. -/
theorem nulls_of_late :
    ∀ {rest front : List Given} {j : Nat} {a : ArgsAddr}, params = front ++ rest →
      (∀ x ∈ rest, x.1.cfgNum = .dynamic → x.2.slots.head? ≠ some none) →
      (slotsOf front).length < j → j ≤ ts.extTensors.length →
      (∀ i, (slotsOf front).length ≤ i → i < j → ts.contents[i]? = some none) →
      ts.WalksRight memory isInput data rest j a →
      (∀ e ∈ slotsOf rest, e = none) ∧ j + rest.length ≤ ts.extTensors.length := by
  intro rest
  induction rest with
  | nil =>
    intro front j a _ _ _ hj _ _
    exact ⟨nofun, hj⟩
  | cons x rest ih =>
    intro front j a hsplit hstarts hlate hj hnulls h
    have hsplit' : params = (front ++ [x]) ++ rest := by rw [hsplit, append_assoc]; rfl
    have hstarts' := fun y hy => hstarts y (mem_cons_of_mem x hy)
    have hknown := hfilled.known front x rest hsplit
    -- The slot in its own place is null.
    have hnone : ∀ e es, x.2.slots = e :: es → e = none := by
      intro e es hslots
      have hfirst := hfilled.first hsplit hslots
      rw [hnulls _ (Nat.le_refl _) hlate] at hfirst
      exact Option.map_eq_none_iff.mp (some.inj hfirst).symm
    obtain ⟨c, hc⟩ := h.inside
    have hinside : j < ts.extTensors.length := by
      rw [← length_contents]
      exact (List.getElem?_eq_some_iff.mp hc).1
    cases c with
    | none =>
      obtain ⟨hpoints, hrest⟩ :=
        (walksRight_cons (prepareParam_null hc) ⟨rfl, prefix_rfl⟩).mp h
      have hnulls' : ∀ i, (slotsOf front).length ≤ i → i < j + 1 → ts.contents[i]? = some none := by
        intro i hlo hhi
        rcases Nat.lt_succ_iff_lt_or_eq.mp hhi with hi | rfl
        · exact hnulls i hlo hi
        · exact hc
      cases hslots : x.2.slots with
      | nil =>
        have hlen := length_slotsOf_of_nil front hslots
        obtain ⟨hall, hroom⟩ := ih hsplit' hstarts' (by omega) hinside (by rwa [hlen]) hrest
        unfold slotsOf at hall ⊢
        rw [flatMap_cons, hslots]
        exact ⟨hall, by rw [length_cons]; omega⟩
      | cons e es =>
        obtain rfl := hnone e es hslots
        obtain ⟨p, arg⟩ := x
        cases arg with
        | tensor tensor =>
          obtain ⟨rfl, rfl⟩ := List.cons.inj hslots
          have hlen : (slotsOf (front ++ [(p, Arg.tensor none)])).length =
            (slotsOf front).length + 1 := length_slotsOf_snoc front _
          obtain ⟨hall, hroom⟩ := ih hsplit' hstarts' (by omega) hinside
            (fun i hlo hhi => hnulls' i (by omega) hhi) hrest
          refine ⟨?_, by rw [length_cons]; omega⟩
          intro e he
          rcases mem_slotsOf_cons.mp he with he | he
          · exact mem_singleton.mp he
          · exact hall e he
        | tensorList l =>
          exact absurd (by rw [hslots]; rfl) (hstarts _ mem_cons_self
            (eq_dynamic_of_admits hknown.admits))
    | some t =>
      cases hslots : x.2.slots with
      | nil =>
        obtain ⟨hp, l, hl, hnil⟩ := hknown.dynamic hslots
        obtain ⟨-, a₁, hrest⟩ := num_eq_zero
          (hsizes x (by rw [hsplit]; exact mem_append_right _ mem_cons_self) hp)
          hc hp hl hnil h
        have hlen := length_slotsOf_of_nil front hslots
        obtain ⟨hall, -⟩ := ih hsplit' hstarts' (by omega) hj (by rwa [hlen]) hrest
        -- Then the slot that was read is null after all.
        obtain ⟨m, hm, htotal⟩ := hfilled.behind hsplit'
        rw [hlen] at hm htotal
        have hnull : ts.contents[j]? = some none := by
          rw [show j = (slotsOf front).length + (j - (slotsOf front).length) by omega,
            ← getElem?_drop, hm]
          refine getElem?_nulls (fun c hc => ?_) (by rw [length_flat]; omega)
          rw [flat_eq] at hc
          obtain ⟨e, he, rfl⟩ := mem_map.mp hc
          rw [hall e he]
          rfl
        rw [hnull] at hc
        cases hc
      | cons e es =>
        obtain rfl := hnone e es hslots
        obtain ⟨p, arg⟩ := x
        cases arg with
        | tensor tensor =>
          obtain ⟨rfl, rfl⟩ := List.cons.inj hslots
          obtain ⟨a₁, ptr, hstep, hext, htensor⟩ :=
            prepareParam_single memory isInput a hc
              (ne_dynamic_of_admits hknown.admits)
          obtain ⟨hpoints, -⟩ := (walksRight_cons hstep hext).mp h
          rw [show ptr = .null from hpoints] at htensor
          unfold PointsToTensor at htensor
          split at htensor
          next =>
            obtain ⟨offset, hptr, -⟩ := htensor
            cases hptr
          next => cases htensor
        | tensorList l =>
          exact absurd (by rw [hslots]; rfl) (hstarts _ mem_cons_self
            (eq_dynamic_of_admits hknown.admits))

/-- If every pointer is right, the walk was in step. -/
theorem inStep_of_walksRight :
    ∀ {rest front : List Given} {a : ArgsAddr}, params = front ++ rest →
      NoNullListBehind rest → ts.WalksRight memory isInput data rest (slotsOf front).length a →
      InStep ts (slotsOf front).length rest := by
  intro rest
  induction rest with
  | nil =>
    intro front a _ _ _
    exact inStep_nil
  | cons x rest ih =>
    intro front a hsplit hbehind h
    have hsplit' : params = (front ++ [x]) ++ rest := by rw [hsplit, append_assoc]; rfl
    have hknown := hfilled.known front x rest hsplit
    have hbehind' : NoNullListBehind rest := by
      intro front' y back hrest
      exact hbehind (x :: front') y back (by rw [hrest]; rfl)
    have ih := fun a => ih (a := a) hsplit' hbehind'
    rw [length_slotsOf_snoc] at ih
    obtain ⟨c, hc⟩ := h.inside
    cases hslots : x.2.slots with
    | nil =>
      rw [hslots, length_nil, Nat.add_zero] at ih
      have hlen := length_slotsOf_of_nil front hslots
      obtain ⟨m, hm, htotal⟩ := hfilled.behind hsplit'
      rw [hlen] at hm htotal
      have hboth : ((∀ e ∈ slotsOf rest, e = none) ∧
            (slotsOf front).length + rest.length + 1 ≤ ts.extTensors.length ∨
          x.1.num = 0 ∧ ∃ t, (slotsOf rest).head? = some (some t)) ∧
          InStep ts (slotsOf front).length rest := by
        -- what the walk finds in the slot behind: nothing, or the next tensor
        cases c with
        | none =>
          obtain ⟨-, hrest⟩ :=
            (walksRight_cons (prepareParam_null hc) ⟨rfl, prefix_rfl⟩).mp h
          have hinside := (List.getElem?_eq_some_iff.mp hc).1
          rw [length_contents] at hinside
          have hstarts := hbehind [] x rest rfl hslots
          obtain ⟨hall, hroom⟩ := nulls_of_late hfilled hsizes hsplit' hstarts (by omega) hinside
            (fun i hlo hhi => by rwa [show i = (slotsOf front).length by omega]) hrest
          exact ⟨Or.inl ⟨hall, by omega⟩, inStep_of_nulls
            (fun y hy => hfilled.admits y (by rw [hsplit']; exact mem_append_right _ hy))
            hstarts hall (by omega)⟩
        | some t =>
          obtain ⟨hp, l, hl, hnil⟩ := hknown.dynamic hslots
          obtain ⟨hzero, a₁, hrest⟩ := num_eq_zero
            (hsizes x (by rw [hsplit]; exact mem_append_right _ mem_cons_self) hp)
            hc hp hl hnil h
          refine ⟨Or.inr ⟨hzero, ?_⟩, ih a₁ hrest⟩
          rw [← head?_drop, hm, flat_eq] at hc
          cases hrests : slotsOf rest with
          | nil =>
            rw [hrests] at hc
            cases m with
            | zero | succ _ => cases hc
          | cons e es =>
            rw [hrests] at hc
            obtain ⟨t', rfl, -⟩ := map_eq_some_iff.mp (some.inj hc)
            exact ⟨t', rfl⟩
      refine inStep_cons.mpr ⟨?_, ?_, fun _ => hboth.1, ?_⟩
      · rw [hslots]
        exact fun _ => nofun
      · rw [hslots]
        exact fun _ => nofun
      · rw [hslots]
        exact hboth.2
    | cons e es =>
      have hfirst := hfilled.first hsplit hslots
      have hne : x.2.slots ≠ [] := by
        rw [hslots]
        exact cons_ne_nil e es
      obtain ⟨p, arg⟩ := x
      cases arg with
      | tensor tensor =>
        have hp := ne_dynamic_of_admits hknown.admits
        obtain ⟨rfl, rfl⟩ := List.cons.inj hslots
        refine inStep_cons.mpr ⟨fun hdyn => absurd hdyn hp, fun hdyn => absurd hdyn hp, nofun, ?_⟩
        cases tensor with
        | none =>
          exact ih _ ((walksRight_cons (prepareParam_null hfirst) ⟨rfl, prefix_rfl⟩).mp h).2
        | some t =>
          obtain ⟨a₁, ptr, hstep, hext, -⟩ :=
            prepareParam_single memory isInput a hfirst hp
          exact ih a₁ ((walksRight_cons hstep hext).mp h).2
      | tensorList l =>
        have hp := eq_dynamic_of_admits hknown.admits
        -- a list that starts with a missing tensor is not walked as a list
        cases e with
        | none =>
          obtain ⟨hpoints, -⟩ :=
            (walksRight_cons (prepareParam_null hfirst) ⟨rfl, prefix_rfl⟩).mp h
          rcases hpoints with ⟨hnil, -⟩ | ⟨offset, hptr, -⟩
          · exact absurd hnil hne
          · cases hptr
        | some t =>
          obtain ⟨slots, hown, hmap, hget⟩ := hfilled.ownSlots hsplit hne hp
          obtain ⟨a₁, hstep, hext, hdata⟩ :=
            prepareParam_block memory isInput a hfirst hp hown
          obtain ⟨hpoints, hrest⟩ := (walksRight_cons hstep hext).mp h
          have hblock := hpoints.resolve_left fun hnil => hne hnil.1
          obtain ⟨u, v, huv⟩ := block_read hblock hdata hrest.written
          have hlength : slots.length = (p, Arg.tensorList l).2.slots.length := by
            have := congrArg List.length hmap
            rwa [length_map, length_map] at this
          have hplaces := dynamicBlock_inj (by
            rw [length_map, length_map, hlength]
            rfl) huv
          have hblank := (places_eq_iff hmap).mp hplaces.symm
          rw [show p.num = (p, Arg.tensorList l).2.slots.length from hknown.counts hp hne] at hrest
          refine inStep_cons.mpr ⟨fun _ => ?_, fun _ i hi slot hslot => ?_,
            fun hnil => absurd hnil hne, ih a₁ hrest⟩
          · rw [hslots]
            nofun
          · refine hblank i hi slot ((hget i ?_).trans hslot)
            rw [hlength]
            exact (List.getElem?_eq_some_iff.mp hi).1

end

/-! ## A launch -/

section

variable (h : Filled opt ts params)
include h

theorem Filled.givenTo {args : List Arg}
    (hargs : params.map Prod.snd = args) : givenTo ts args = params := by
  unfold Indv.givenTo
  rw [h.instances, ← hargs, zip_map']
  exact map_id params

theorem prepareParamsExt_eq :
    ts.prepareParamsExt memory isInput false a =
      (ts.walk memory isInput params (0, a)).map Prod.snd := by
  unfold prepareParamsExt walk
  rw [← h.instances]
  cases ts.instances.foldlM (ts.prepareParam memory isInput false) (0, a) with
  | none => rfl
  | some last => rfl

theorem Walks.prepared (hwalks : ts.Walks memory isInput params 0 a) :
    ∃ a' ptrs, ts.prepareParamsExt memory isInput false a = some a' ∧
      a'.addr = a.addr ++ ptrs ∧ a.hostInputData <+: a'.hostInputData ∧
      ∀ data, a'.hostInputData <+: data → List.Forall₂ (Points isInput data) params ptrs := by
  obtain ⟨j', a', hwalk, hright⟩ := hwalks
  obtain ⟨⟨ptrs, haddr, -⟩, hdata⟩ := walk_extends hwalk
  refine ⟨a', ptrs, by rw [prepareParamsExt_eq h, hwalk]; rfl, haddr, hdata, fun data hle => ?_⟩
  obtain ⟨j'', a'', ptrs', hwalk', haddr', -, hpoints⟩ := hright data hle
  cases hwalk.symm.trans hwalk'
  rwa [append_cancel_left (haddr.symm.trans haddr')]

theorem prepared_extends (hprepared : ts.prepareParamsExt memory isInput false a = some a') :
    (∃ ptrs, a'.addr = a.addr ++ ptrs ∧ ptrs.length = params.length) ∧
      a.hostInputData <+: a'.hostInputData := by
  rw [prepareParamsExt_eq h] at hprepared
  obtain ⟨⟨j', al⟩, hwalk, hal⟩ := map_eq_some_iff.mp hprepared
  cases hal
  exact walk_extends hwalk

theorem walksRight_of_prepared {ptrs : List Pointer}
    (hprepared : ts.prepareParamsExt memory isInput false a = some a')
    (haddr : a'.addr = a.addr ++ ptrs) (hdata : a'.hostInputData <+: data)
    (hpoints : List.Forall₂ (Points isInput data) params ptrs) :
    ts.WalksRight memory isInput data params 0 a := by
  rw [prepareParamsExt_eq h] at hprepared
  obtain ⟨⟨j', al⟩, hwalk, hal⟩ := map_eq_some_iff.mp hprepared
  cases hal
  exact ⟨j', al, ptrs, hwalk, haddr, hdata, hpoints⟩

end

theorem pointersInOrder_of_inStep {ins outs : Tensors} {inParams outParams : List Given}
    (hins : Filled opt ins inParams) (houts : Filled opt outs outParams)
    (hin : InStep ins 0 inParams) (hout : InStep outs 0 outParams) (memory : Nat → Byte)
    (a : ArgsAddr) :
    PointersInOrder ins outs (inParams.map Prod.snd) (outParams.map Prod.snd) memory a := by
  have hwalks : ins.Walks memory true inParams 0 a :=
    walks_of_inStep hins (nil_append _).symm hin
  obtain ⟨a₁, ptrs, ha₁, haddr, -, hpoints⟩ := hwalks.prepared hins
  have hwalks' : outs.Walks memory false outParams 0 a₁ :=
    walks_of_inStep houts (nil_append _).symm hout
  obtain ⟨a', ptrs', ha', haddr', hdata, hpoints'⟩ := hwalks'.prepared houts
  refine ⟨a', ptrs, ptrs', ?_, by rw [haddr', haddr], ?_, ?_⟩
  · unfold prepareIoParamsExt
    rw [ha₁]
    exact ha'
  · rw [hins.givenTo rfl]
    exact hpoints _ hdata
  · rw [houts.givenTo rfl]
    exact hpoints' _ prefix_rfl

/-- The sizes that earlier launches left. -/
def SizesKept (params : List Given) : Prop :=
  ∀ x ∈ params, x.1.cfgNum = .dynamic → x.1.num ≤ dynamicParamDefNum

theorem Shaped.sizesKept {paramDesc : List ParamType} (h : Shaped paramDesc ts)
    (hfilled : Filled opt ts params) : SizesKept params :=
  fun x hx => h.sizes x.1 (by rw [hfilled.instances]; exact mem_map_of_mem hx)

theorem inStep_of_pointersInOrder {ins outs : Tensors} {inParams outParams : List Given}
    (hins : Filled opt ins inParams) (houts : Filled opt outs outParams)
    (hinSizes : SizesKept inParams) (houtSizes : SizesKept outParams)
    (hbehind : NoNullListBehind inParams) (hbehind' : NoNullListBehind outParams)
    (h : PointersInOrder ins outs (inParams.map Prod.snd) (outParams.map Prod.snd) memory a) :
    InStep ins 0 inParams ∧ InStep outs 0 outParams := by
  obtain ⟨a', ptrs, ptrs', hprepared, haddr, hpoints, hpoints'⟩ := h
  rw [hins.givenTo rfl] at hpoints
  rw [houts.givenTo rfl] at hpoints'
  obtain ⟨a₁, ha₁, ha'⟩ := Option.bind_eq_some_iff.mp hprepared
  obtain ⟨⟨ps, hps, hlength⟩, -⟩ := prepared_extends hins ha₁
  obtain ⟨⟨qs, hqs, -⟩, hdata⟩ := prepared_extends houts ha'
  -- The pointers of the inputs end where those of the outputs begin.
  rw [hqs, hps, append_assoc, append_assoc] at haddr
  obtain ⟨rfl, rfl⟩ := append_inj (append_cancel_left haddr) (hlength.trans hpoints.length_eq)
  exact ⟨inStep_of_walksRight hins hinSizes (nil_append _).symm hbehind
      (walksRight_of_prepared hins ha₁ hps hdata hpoints),
    inStep_of_walksRight houts houtSizes (nil_append _).symm hbehind'
      (walksRight_of_prepared houts ha' hqs prefix_rfl hpoints')⟩

end Tensors

open Tensors

/-- Every pointer is the one of its parameter if the walk stays in step, and, unless a list
that begins with a null element stands behind one without elements, only then. -/
theorem pointers_in_ir_order {inputDesc outputDesc : List ParamType} {inputs outputs : Tensors}
    (hinputs : Reached inputDesc inputs) (houtputs : Reached outputDesc outputs)
    (opt : FormatCheckOption) {inputArgs outputArgs : List Arg}
    (hinputArgs : List.Forall₂ Admits inputDesc inputArgs)
    (houtputArgs : List.Forall₂ Admits outputDesc outputArgs)
    (memory : Nat → Byte) (a : ArgsAddr) :
    ∃ ins outs, inputs.clearExtTensors.addArgs opt inputArgs = some ins ∧
      outputs.clearExtTensors.addArgs opt outputArgs = some outs ∧
      (InStep ins 0 (givenTo ins inputArgs) ∧ InStep outs 0 (givenTo outs outputArgs) →
        PointersInOrder ins outs inputArgs outputArgs memory a) ∧
      (NoNullListBehind (givenTo ins inputArgs) → NoNullListBehind (givenTo outs outputArgs) →
        PointersInOrder ins outs inputArgs outputArgs memory a →
        InStep ins 0 (givenTo ins inputArgs) ∧ InStep outs 0 (givenTo outs outputArgs)) := by
  obtain ⟨ins, inParams, hins, rfl, hinShaped, hinFilled⟩ :=
    hinputs.shaped.addArgs opt hinputArgs
  obtain ⟨outs, outParams, houts, rfl, houtShaped, houtFilled⟩ :=
    houtputs.shaped.addArgs opt houtputArgs
  refine ⟨ins, outs, hins, houts, ?_, ?_⟩
  · rw [hinFilled.givenTo rfl, houtFilled.givenTo rfl]
    intro ⟨hin, hout⟩
    exact pointersInOrder_of_inStep hinFilled houtFilled hin hout memory a
  · rw [hinFilled.givenTo rfl, houtFilled.givenTo rfl]
    exact inStep_of_pointersInOrder hinFilled houtFilled (hinShaped.sizesKept hinFilled)
      (houtShaped.sizesKept houtFilled)

/-- A tensor on the device, at the address 4096. -/
def deviceTensor : AclTensor := ⟨⟨0⟩, 2, ⟨[4], by decide⟩, ⟨[4], by decide⟩, 4096, [], true⟩

theorem admits_device : List.Forall₂ Admits [.dynamic, .required]
    [.tensorList (some [deviceTensor]), .tensor deviceTensor] :=
  .cons (show 1 ≤ dynamicParamDefNum by decide) (.cons trivial .nil)

theorem pointers_in_ir_order_list :
    ∃ ins outs, (initIoCaches [.dynamic, .required]).clearExtTensors.addArgs .default
        [.tensorList (some [deviceTensor]), .tensor deviceTensor] = some ins ∧
      (initIoCaches [.required]).clearExtTensors.addArgs .default [.tensor deviceTensor] =
        some outs ∧
      PointersInOrder ins outs [.tensorList (some [deviceTensor]), .tensor deviceTensor]
        [.tensor deviceTensor] (fun _ => 0) ⟨[], [], [], 0⟩ := by
  obtain ⟨ins, outs, hins, houts, hright, -⟩ := pointers_in_ir_order
    (.init : Reached [.dynamic, .required] _) (.init : Reached [.required] _) .default
    admits_device (forall₂_cons.mp admits_device).2 (fun _ => 0) ⟨[], [], [], 0⟩
  refine ⟨ins, outs, hins, houts, hright ⟨?_, ?_⟩⟩
  · obtain rfl := some.inj (hins.symm.trans rfl)
    refine inStep_cons.mpr ⟨fun _ => nofun, fun _ i hi t ht => ?_, nofun,
      inStep_cons.mpr ⟨nofun, nofun, nofun, inStep_nil⟩⟩
    cases i with
    | zero => cases hi
    | succ i => cases hi
  · obtain rfl := some.inj (houts.symm.trans rfl)
    exact inStep_cons.mpr ⟨nofun, nofun, nofun, inStep_nil⟩

/-- An empty list, no tensor for an optional input, a tensor for a required one: the optional
input gets the address of the tensor, the required one an empty pointer. -/
theorem pointers_slip :
    Reached [.dynamic, .optional, .required] (initIoCaches [.dynamic, .optional, .required]) ∧
    Reached [] (initIoCaches []) ∧
    List.Forall₂ Admits [.dynamic, .optional, .required]
      [.tensorList (some []), .tensor none, .tensor (some deviceTensor)] ∧
    ∃ ins, (initIoCaches [.dynamic, .optional, .required]).clearExtTensors.addArgs .default
        [.tensorList (some []), .tensor none, .tensor (some deviceTensor)] = some ins ∧
      ¬ PointersInOrder ins (initIoCaches [])
        [.tensorList (some []), .tensor none, .tensor (some deviceTensor)] [] (fun _ => 0)
        ⟨[], [], [], 0⟩ := by
  have hadmits : List.Forall₂ Admits [.dynamic, .optional, .required]
      [.tensorList (some []), .tensor none, .tensor (some deviceTensor)] :=
    .cons (Nat.zero_le _) (.cons trivial (.cons trivial .nil))
  obtain ⟨ins, params, hins, hargs, hshaped, hfilled⟩ :=
    (Reached.init : Reached [.dynamic, .optional, .required] _).shaped.addArgs .default hadmits
  obtain ⟨outs, params', houts, hargs', hshaped', hfilled'⟩ :=
    (Reached.init : Reached [] _).shaped.addArgs .default List.Forall₂.nil
  obtain rfl : (initIoCaches []) = outs := some.inj houts
  obtain rfl := map_eq_nil_iff.mp hargs'
  refine ⟨.init, .init, hadmits, ins, hins, fun h => ?_⟩
  rw [← hargs] at h
  have hbehind : NoNullListBehind params := by
    intro front x back hsplit hempty y hy hp hnull
    have hmem : y ∈ params := by
      rw [hsplit]
      exact mem_append_right _ (mem_cons_of_mem x hy)
    have harg : y.2 ∈ params.map Prod.snd := mem_map_of_mem hmem
    have hadmits := hfilled.admits y hmem
    rw [hargs] at harg
    rcases mem_cons.mp harg with heq | harg
    · rw [heq] at hnull
      cases hnull
    · obtain ⟨t, heq⟩ : ∃ t, y.2 = .tensor t := by
        rcases mem_cons.mp harg with heq | harg
        · exact ⟨_, heq⟩
        · exact ⟨_, mem_singleton.mp harg⟩
      rw [heq] at hadmits
      exact ne_dynamic_of_admits hadmits hp
  have hbehind' : NoNullListBehind [] := by
    intro front x back hsplit
    cases front with
    | nil | cons _ _ => cases hsplit
  obtain ⟨hin, -⟩ := inStep_of_pointersInOrder hfilled hfilled' (hshaped.sizesKept hfilled)
    nofun hbehind hbehind' h
  obtain ⟨x, rest, rfl, hx, hrest⟩ := map_eq_cons_iff.mp hargs
  have hslots : slotsOf rest = [none, some deviceTensor] := by
    unfold slotsOf
    rw [← flatMap_map, hrest]
    rfl
  -- The null slot in front of the tensor is the one that is read for the list.
  rcases hin.empties [] x rest rfl (by rw [hx]; rfl) with ⟨hnone, -⟩ | ⟨-, t, ht⟩
  · have := hnone (some deviceTensor) (by rw [hslots]; simp)
    cases this
  · rw [hslots] at ht
    cases ht

end OpBase.Indv
