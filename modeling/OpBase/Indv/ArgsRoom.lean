import OpBase.Indv.ArgsBuf
import OpBase.Indv.DfxInfoSized

/-!
# The room the launch arguments take

The buffer is sized from totals. What is written behind the tiling data grows item by item:
every host input begins at a multiple of 8, where the total of their sizes is rounded up once;
the dump info has a word for every context, of which the total knows nothing; and with fewer
than 50 tensors and little tiling data nothing is added up at all, however many dimensions the
tensors of a list have.

> `args_inside_iff`: every byte is written inside `argsBuf` if and only if the slots fit in
> front of the tiling data and the buffer is as long as the parts behind it reach.
-/

namespace OpBase.Indv

open List OpBase.Lib

/-! ## What inputs and outputs bring -/

/-- The end of the last byte of data that is given by its bytes and the room they take. -/
def storedEnd : List (Nat × Nat) → Nat
  | [] => 0
  | x :: xs => if storedEnd xs = 0 then x.1 else x.2 + storedEnd xs

/-- All the room. -/
def taken (xs : List (Nat × Nat)) : Nat := (xs.map Prod.snd).sum

/-- The bytes of the block of a list. -/
def blockLen (slots : List ExtTensor) : Nat :=
  8 + (slots.map fun t => 16 + 8 * t.rt2Tensor.storageShape.val.length).sum

namespace Tensors

/-- The pointers and the data of a parameter, from the slot that is read for it. -/
def broughtAt (isInput isStaticShape : Bool) (ts : Tensors) (p : ParamInstance) (j : Nat) :
    Nat × List (Nat × Nat) :=
  match ts.contents[j]? with
  | none => (0, [])
  | some none => (if isStaticShape then 0 else 1, [])
  | some (some t) =>
    if p.cfgNum ≠ .dynamic then
      (1, if isInput && !t.onDevice then [(t.data.length, ArgsAddr.alignedSize t.data.length)]
        else [])
    else (1, ((ts.ownSlots p).map fun slots => (blockLen slots, blockLen slots)).toList)

/-- Parameter by parameter. -/
def brought (isInput isStaticShape : Bool) (ts : Tensors) : List (Nat × List (Nat × Nat)) :=
  List.zipWith (ts.broughtAt isInput isStaticShape) ts.instances (ts.slotsRead 0 ts.instances)

end Tensors

/-- The arguments are written on by so many pointers and so much data. -/
structure Carries (a a' : ArgsAddr) (ys : List (Nat × List (Nat × Nat))) : Prop where
  addr : a'.addr.length = a.addr.length + (ys.map Prod.fst).sum
  info : a'.hostInputInfo.length = a.hostInputInfo.length + (ys.flatMap Prod.snd).length
  data : a'.hostInputData.length = a.hostInputData.length + taken (ys.flatMap Prod.snd)
  stored : a'.stored = if storedEnd (ys.flatMap Prod.snd) = 0 then a.stored
    else a.hostInputData.length + storedEnd (ys.flatMap Prod.snd)

variable {ts : Tensors} {p : ParamInstance} {j : Nat} {a a' a'' : ArgsAddr}
  {isInput isStaticShape : Bool} {memory : Nat → Byte}

theorem taken_append (xs ys : List (Nat × Nat)) : taken (xs ++ ys) = taken xs + taken ys := by
  unfold taken
  rw [map_append, sum_append]

theorem storedEnd_append (xs ys : List (Nat × Nat)) :
    storedEnd (xs ++ ys) = if storedEnd ys = 0 then storedEnd xs else taken xs + storedEnd ys := by
  induction xs with
  | nil =>
    rw [nil_append, storedEnd, taken, map_nil, sum_nil, Nat.zero_add]
    split
    next h => exact h
    next => rfl
  | cons x xs ih =>
    rw [cons_append, storedEnd, ih]
    by_cases hys : storedEnd ys = 0
    · rw [if_pos hys, if_pos hys, storedEnd]
    · have htaken : taken (x :: xs) = x.2 + taken xs := rfl
      rw [if_neg hys, if_neg hys, if_neg (by omega), htaken, Nat.add_assoc]

namespace Carries

theorem refl (a : ArgsAddr) : Carries a a [] := ⟨rfl, rfl, rfl, rfl⟩

theorem trans {ys zs : List (Nat × List (Nat × Nat))} (h : Carries a a' ys)
    (h' : Carries a' a'' zs) : Carries a a'' (ys ++ zs) where
  addr := by rw [h'.addr, h.addr, map_append, sum_append, Nat.add_assoc]
  info := by rw [h'.info, h.info, flatMap_append, length_append, Nat.add_assoc]
  data := by rw [h'.data, h.data, flatMap_append, taken_append, Nat.add_assoc]
  stored := by
    rw [h'.stored, h.stored, h.data, flatMap_append, storedEnd_append]
    by_cases hzs : storedEnd (zs.flatMap Prod.snd) = 0
    · rw [if_pos hzs, if_pos hzs]
    · rw [if_neg hzs, if_neg hzs, if_neg (by omega), Nat.add_assoc]

end Carries

theorem length_dynamicBlock (slots : List ExtTensor) :
    (dynamicBlock (slots.map ExtTensor.rt2Tensor)).length = blockLen slots := by
  unfold dynamicBlock blockLen
  rw [length_append, length_append, length_le8]
  have hsum : ∀ slots : List ExtTensor,
      ((slots.map ExtTensor.rt2Tensor).flatMap shapeEntry).length +
        ((slots.map ExtTensor.rt2Tensor).flatMap fun t => le8 t.addr).length =
      (slots.map fun t => 16 + 8 * t.rt2Tensor.storageShape.val.length).sum := by
    intro slots
    induction slots with
    | nil => rfl
    | cons t slots ih =>
      have hentry : (shapeEntry t.rt2Tensor).length =
          8 + 8 * t.rt2Tensor.storageShape.val.length := by
        unfold shapeEntry
        rw [length_append, length_append, length_le, length_le, length_dimBytes, Nat.mul_comm]
      rw [map_cons, flatMap_cons, flatMap_cons, length_append,
        length_append, map_cons, sum_cons, hentry, length_le8]
      omega
  have := hsum slots
  omega

namespace Tensors

/-! ## One parameter -/

theorem carries_push (a : ArgsAddr) (ptr : Pointer) : Carries a (a.push ptr) [(1, [])] :=
  ⟨length_append, rfl, rfl, rfl⟩

theorem carries_encodeHostInput (j : Nat) (t : GertTensor) (a : ArgsAddr) :
    Carries a (a.encodeHostInput memory j t)
      [(1, [(t.data.length, ArgsAddr.alignedSize t.data.length)])] where
  addr := length_append
  info := length_append
  data := by
    have hle : t.data.length ≤ ArgsAddr.alignedSize t.data.length := by
      unfold ArgsAddr.alignedSize
      omega
    show (a.hostInputData ++ (t.data ++ _)).length = a.hostInputData.length + _
    rw [length_append, length_append, length_map, length_range, Nat.add_sub_cancel' hle]
    rfl
  stored := rfl

theorem encodeDynamicTensors_carries {slots : List ExtTensor} (a : ArgsAddr)
    (h : ts.ownSlots p = some slots) :
    ∃ a', ts.encodeDynamicTensors p a = some a' ∧
      Carries a a' [(1, [(blockLen slots, blockLen slots)])] := by
  unfold encodeDynamicTensors
  rw [h]
  refine ⟨_, rfl, length_append, length_append, ?_, ?_⟩
  · rw [length_append, length_dynamicBlock]
    rfl
  · have hpos : blockLen slots ≠ 0 := by
      unfold blockLen
      omega
    show a.hostInputData.length + (dynamicBlock (slots.map ExtTensor.rt2Tensor)).length =
      if blockLen slots = 0 then a.stored else a.hostInputData.length + blockLen slots
    rw [length_dynamicBlock, if_neg hpos]

/-- One parameter is followed by what is brought along for it. -/
theorem prepareParam_carries (p : ParamInstance) (j : Nat) (a : ArgsAddr) (h : ts.Readable p j) :
    ∃ a', ts.prepareParam memory isInput isStaticShape (j, a) p = some (ts.nextSlot p j, a') ∧
      Carries a a' [ts.broughtAt isInput isStaticShape p j] := by
  obtain ⟨c, hc, hown⟩ := h
  obtain ⟨slot, hslot, hcontent⟩ := slot_of_content hc
  unfold prepareParam nextSlot broughtAt
  simp only [hslot, hc]
  cases c with
  | none =>
    rw [if_pos (isNull_of_content.mp hcontent)]
    refine ⟨_, rfl, ?_⟩
    unfold prepareNullTensors
    cases isStaticShape with
    | true => exact ⟨rfl, rfl, rfl, rfl⟩
    | false => exact carries_push a .null
  | some t =>
    obtain ⟨hnull, ht⟩ := rt2Tensor_of_content hcontent
    simp only [hnull, ht, Bool.false_eq_true, if_false]
    by_cases hp : p.cfgNum = .dynamic
    · obtain ⟨slots, hslots⟩ := Option.isSome_iff_exists.mp (hown nofun hp)
      obtain ⟨a', ha', hcarries⟩ := encodeDynamicTensors_carries a hslots
      rw [if_neg (not_not.mpr hp), ha', if_pos hp, if_neg (not_not.mpr hp), hslots]
      exact ⟨a', rfl, hcarries⟩
    · rw [if_pos hp, if_neg hp, if_pos hp]
      by_cases hhost : (isInput && !t.onDevice) = true
      · rw [if_pos hhost, if_pos hhost]
        exact ⟨_, rfl, carries_encodeHostInput j t a⟩
      · rw [if_neg hhost, if_neg hhost]
        exact ⟨_, rfl, carries_push a _⟩

theorem prepareParam_unreadable (p : ParamInstance) (j : Nat) (a : ArgsAddr)
    (h : ¬ ts.Readable p j) :
    ts.prepareParam memory isInput isStaticShape (j, a) p = none := by
  unfold prepareParam
  dsimp only
  split
  next => rfl
  next slot hslot =>
    obtain ⟨hnull, hp, hown⟩ := slot_unreadable h hslot
    unfold encodeDynamicTensors
    rw [if_neg hnull, if_neg (not_not.mpr hp), hown]
    rfl

/-! ## All of them -/

/-- Every slot the walk comes to can be read. -/
def Reads (ts : Tensors) : Prop :=
  List.Forall₂ ts.Readable ts.instances (ts.slotsRead 0 ts.instances)

theorem prepareParamsExt_walk (ts : Tensors) (memory : Nat → Byte)
    (isInput isStaticShape : Bool) (a : ArgsAddr) :
    (ts.Reads → ∃ a', ts.prepareParamsExt memory isInput isStaticShape a = some a' ∧
      Carries a a' (ts.brought isInput isStaticShape)) ∧
    (¬ ts.Reads → ts.prepareParamsExt memory isInput isStaticShape a = none) := by
  have hwalk := walk_slots (f := ts.prepareParam memory isInput isStaticShape) id
    (ts.broughtAt isInput isStaticShape) Carries Carries.refl Carries.trans
    prepareParam_carries prepareParam_unreadable ts.instances 0 a
  rw [map_id] at hwalk
  unfold prepareParamsExt
  refine ⟨fun h => ?_, fun h => by rw [hwalk.2 h]; rfl⟩
  obtain ⟨last, hlast, hcarries⟩ := hwalk.1 h
  rw [hlast]
  exact ⟨last.2, rfl, hcarries⟩

end Tensors

namespace ArgsExecutor

open Tensors Span

variable {sys : ArgsSystem} {t : Tiled} {b : ArgsBuf} {e : ArgsExecutor}

/-- What inputs and outputs bring. -/
def brought (e : ArgsExecutor) : List (Nat × List (Nat × Nat)) :=
  e.inputs.brought true e.binInfo.isStaticShape ++ e.outputs.brought false e.binInfo.isStaticShape

/-- The slots of inputs and outputs. -/
def ioNum (e : ArgsExecutor) : Nat := (e.brought.map Prod.fst).sum

/-- The host inputs, rounded up to whole words, and the blocks of the lists. -/
def cargo (e : ArgsExecutor) : List (Nat × Nat) := e.brought.flatMap Prod.snd

/-- Nothing is read outside the slots. -/
def Reads (e : ArgsExecutor) : Prop := e.inputs.Reads ∧ e.outputs.Reads

theorem prepareIoParamsExt_walk (e : ArgsExecutor) (memory : Nat → Byte) (a : ArgsAddr) :
    (e.Reads → ∃ a', prepareIoParamsExt e.inputs e.outputs memory e.binInfo.isStaticShape a =
      some a' ∧ Carries a a' e.brought) ∧
    (¬ e.Reads →
      prepareIoParamsExt e.inputs e.outputs memory e.binInfo.isStaticShape a = none) := by
  obtain ⟨hin, hinNone⟩ :=
    prepareParamsExt_walk e.inputs memory true e.binInfo.isStaticShape a
  unfold prepareIoParamsExt
  by_cases hreads : e.inputs.Reads
  · obtain ⟨a₁, ha₁, hcarries⟩ := hin hreads
    obtain ⟨hout, houtNone⟩ :=
      prepareParamsExt_walk e.outputs memory false e.binInfo.isStaticShape a₁
    rw [ha₁]
    refine ⟨fun h => ?_, fun h => houtNone fun houts => h ⟨hreads, houts⟩⟩
    obtain ⟨a₂, ha₂, hmore⟩ := hout h.2
    exact ⟨a₂, ha₂, hcarries.trans hmore⟩
  · rw [hinNone hreads]
    exact ⟨fun h => absurd h.1 hreads, fun _ => rfl⟩

/-! ## The parts, in numbers -/

/-- The tiling data, the info for accesses out of bounds, the index of the dump. -/
def tilingParts (sys : ArgsSystem) (t : Tiled) (b : ArgsBuf) (e : ArgsExecutor) :
    List (Nat × Nat) :=
  if e.hasTiling then
    [(b.tilingDataOffset, t.dataSize), (e.behindTiling t b, e.oomInfo t)] ++
      (if sys.getDfxInfoAddr then [(e.behindTiling t b + e.oomInfo t, atomicIndex sys)] else [])
  else []

/-- The slots, where they fit in front of the tiling data. -/
def slotPart (sys : ArgsSystem) (t : Tiled) (b : ArgsBuf) (e : ArgsExecutor) : Nat × Nat :=
  (if e.hasTiling then b.tilingDataOffset - (e.slotNum sys t).toNat * 8 else 0,
    8 * e.slotsWritten sys t e.ioNum)

/-- The rows of places for `n` host inputs and lists, and the place of the tiling data. -/
def placeParts (sys : ArgsSystem) (ptr n : Nat) (e : ArgsExecutor) : List (Nat × Nat) :=
  if e.hasPlaces then
    let tilingPlace := if e.hasTiling then 8 else 0
    if e.isMc2 then
      if sys.isMc2FusionLaunch then [(ptr + 8, 8 * n), (ptr, tilingPlace)]
      else
        let aicpu := ptr + e.hostInputInfoNum * 8
        [(ptr, 8 * n), (aicpu, 8 * n), (aicpu + n * 8, tilingPlace)]
    else [(ptr, 8 * n)]
  else []

/-- The names of a communication kernel, and for a fused launch the description. -/
def mc2Parts (sys : ArgsSystem) (hostInputData : Nat) (e : ArgsExecutor) : List (Nat × Nat) :=
  if e.isMc2 then
    let names := 2 * aicpuParamLen
    let opName := e.opType.length + mc2AicpuSuffix.length
    (hostInputData, names + opName) ::
      (if sys.isMc2FusionLaunch then
        [(hostInputData + names + ArgsAddr.alignedSize opName, 8)] else [])
  else []

/-- Behind the slots. -/
def argParts (sys : ArgsSystem) (t : Tiled) (b : ArgsBuf) (e : ArgsExecutor) : List (Nat × Nat) :=
  let ptr := e.ptr sys t b
  let hostInputData := (e.places sys ptr).hostInputData
  e.placeParts sys ptr e.cargo.length ++ (hostInputData, storedEnd e.cargo) ::
    e.mc2Parts sys (hostInputData + taken e.cargo)

/-- The slots fit in front of the tiling data, there are places where there is something to
place, and the buffer is as long as the parts reach. -/
structure Fits (sys : ArgsSystem) (t : Tiled) (b : ArgsBuf) (e : ArgsExecutor) : Prop where
  reads : e.Reads
  places : e.cargo ≠ [] → e.hasPlaces
  front : e.hasTiling → (e.slotNum sys t).toNat * 8 ≤ b.tilingDataOffset
  room : reach (e.tilingParts sys t b ++ e.slotPart sys t b :: e.argParts sys t b) ≤ b.size

/-- Nothing is launched, or all that is written fits. -/
def Room (sys : ArgsSystem) (t : Tiled) (b : ArgsBuf) (e : ArgsExecutor) : Prop :=
  if !e.isEnableZeroeleOutputLaunch then True
  else if e.isMc2 && !sys.getHcomResource then True
  else if e.stopsEarly sys then reach (e.tilingParts sys t b) ≤ b.size
  else e.Fits sys t b

/-- The launch is prepared, and every byte is written in `argsBuf`. -/
def WritesInside (sys : ArgsSystem) (t : Tiled) (b : ArgsBuf) (e : ArgsExecutor) : Prop :=
  ∃ spans, e.prepareParamsExt sys t b = some spans ∧ ∀ x ∈ spans, x.Inside b.size

/-! ## What is written is inside -/

variable {size ptr n hostInputData : Nat}

theorem tilingSpans_inside :
    (∀ x ∈ e.tilingSpans sys t b, x.Inside size) ↔ reach (e.tilingParts sys t b) ≤ size := by
  rw [reach_le]
  unfold tilingSpans tilingParts
  split
  next =>
    split
    next => simp
    next => simp
  next => exact iff_of_true nofun nofun

theorem slots_inside :
    (∀ x ∈ items (e.args sys t b) 8 (e.slotsWritten sys t e.ioNum), x.Inside size) ↔
      (e.hasTiling → (e.slotNum sys t).toNat * 8 ≤ b.tilingDataOffset) ∧
        (ofNat (e.slotPart sys t b).1 (e.slotPart sys t b).2).Inside size := by
  have hpos : 0 < e.slotsWritten sys t e.ioNum := by
    unfold slotsWritten
    omega
  rw [items_inside (by decide), or_iff_right hpos.ne', ofNat_inside]
  unfold args slotPart
  dsimp only
  split
  next htiling =>
    rw [forall_prop_of_true htiling]
    omega
  next htiling =>
    rw [forall_prop_of_false htiling, true_and]
    omega

theorem places_inside (sys : ArgsSystem) (size ptr n : Nat) (hplaces : e.hasPlaces) :
    ∃ spans, rows (e.places sys ptr) n = some spans ∧
      ((∀ x ∈ spans ++ e.tilingPlace sys ptr (e.places sys ptr) n, x.Inside size) ↔
        ∀ x ∈ e.placeParts sys ptr n, (ofNat x.1 x.2).Inside size) := by
  have hzero : ∀ start, (ofNat start 0).Inside size := fun start => ofNat_inside.mpr (Or.inl rfl)
  have happend : ∀ xs ys : List Span, (∀ x ∈ xs ++ ys, x.Inside size) ↔
      (∀ x ∈ xs, x.Inside size) ∧ ∀ x ∈ ys, x.Inside size := fun _ _ => forall_mem_append
  unfold rows tilingPlace placeParts places
  rw [if_pos hplaces, if_pos hplaces]
  dsimp only
  by_cases hmc2 : e.isMc2 = true
  · by_cases hfusion : sys.isMc2FusionLaunch = true
    · rw [if_pos hmc2, if_pos hmc2, if_pos hfusion, if_pos hfusion]
      refine ⟨_, rfl, ?_⟩
      rw [happend, happend, items_inside_ofNat (by decide)]
      cases htiling : e.hasTiling <;> simp [hmc2, hfusion, hzero]
    · rw [if_pos hmc2, if_pos hmc2, if_neg hfusion, if_neg hfusion]
      refine ⟨_, rfl, ?_⟩
      rw [happend, happend, items_inside_ofNat (by decide)]
      simp only [Option.map_some, Option.getD_some]
      rw [items_inside_ofNat (by decide)]
      cases htiling : e.hasTiling <;> simp [hmc2, hfusion, hzero, and_assoc]
  · rw [if_neg hmc2, if_neg hmc2]
    refine ⟨_, rfl, ?_⟩
    rw [happend, happend, items_inside_ofNat (by decide)]
    simp [hmc2]

theorem no_places (sys : ArgsSystem) (ptr n : Nat) (hplaces : ¬ e.hasPlaces) :
    rows (e.places sys ptr) n = (if n = 0 then some [] else none) ∧
      e.tilingPlace sys ptr (e.places sys ptr) n = [] ∧ e.placeParts sys ptr n = [] := by
  unfold rows tilingPlace placeParts places
  rw [if_neg hplaces, if_neg hplaces]
  refine ⟨rfl, if_neg fun htiling => hplaces ?_, rfl⟩
  unfold hasPlaces
  rw [htiling, Bool.or_true]

theorem mc2_inside :
    (∀ x ∈ e.prepareMc2Params sys hostInputData, x.Inside size) ↔
      ∀ x ∈ e.mc2Parts sys hostInputData, (ofNat x.1 x.2).Inside size := by
  have hnames : ∀ start opName : Nat, ((ofNat start aicpuParamLen).Inside size ∧
      (ofNat (start + aicpuParamLen) aicpuParamLen).Inside size ∧
      (ofNat (start + 2 * aicpuParamLen) opName).Inside size) ↔
      (ofNat start (2 * aicpuParamLen + opName)).Inside size := by
    intro start opName
    unfold aicpuParamLen
    simp only [ofNat_inside]
    omega
  unfold prepareMc2Params mc2Parts
  split
  next =>
    dsimp only
    rw [forall_mem_append, forall_mem_cons, forall_mem_cons,
      forall_mem_singleton, hnames, forall_mem_cons]
    refine and_congr_right' ?_
    split
    next => rw [forall_mem_singleton, forall_mem_singleton]
    next => exact iff_of_true nofun nofun
  next => exact iff_of_true nofun nofun

theorem argSpans_eq (hreads : e.Reads) :
    e.argSpans sys t b = let ptr := e.ptr sys t b
      let hostInputData := (e.places sys ptr).hostInputData
      (rows (e.places sys ptr) e.cargo.length).map fun rows =>
        items (e.args sys t b) 8 (e.slotsWritten sys t e.ioNum) ++
          (rows ++ e.tilingPlace sys ptr (e.places sys ptr) e.cargo.length ++
            (ofNat hostInputData (storedEnd e.cargo) ::
              e.prepareMc2Params sys (hostInputData + taken e.cargo))) := by
  obtain ⟨hsome, -⟩ := e.prepareIoParamsExt_walk (fun _ => 0) ⟨[], [], [], 0⟩
  obtain ⟨io, hio, hcarries⟩ := hsome hreads
  have haddr : io.addr.length = e.ioNum := hcarries.addr.trans (Nat.zero_add _)
  have hinfo : io.hostInputInfo.length = e.cargo.length := hcarries.info.trans (Nat.zero_add _)
  have hdata : io.hostInputData.length = taken e.cargo := hcarries.data.trans (Nat.zero_add _)
  have hstored : io.stored = storedEnd e.cargo := by
    refine hcarries.stored.trans ?_
    split
    next h => exact h.symm
    next => exact Nat.zero_add _
  unfold argSpans
  simp only [hio, Option.bind_eq_bind, Option.bind_some, haddr, hinfo, hdata, hstored]
  cases rows (e.places sys (e.ptr sys t b)) e.cargo.length with
  | none => rfl
  | some spans =>
    simp only [Option.bind_some, Option.map_some, append_assoc, singleton_append]

theorem argSpans_none (hreads : ¬ e.Reads) : e.argSpans sys t b = none := by
  obtain ⟨-, hnone⟩ := e.prepareIoParamsExt_walk (fun _ => 0) ⟨[], [], [], 0⟩
  unfold argSpans
  rw [hnone hreads]
  rfl

/-- All that is written for the arguments is inside just when the slots can be read and every part
is. -/
theorem argSpans_inside :
    (∃ spans, e.argSpans sys t b = some spans ∧ ∀ x ∈ spans, x.Inside size) ↔
      e.Reads ∧ (e.cargo ≠ [] → e.hasPlaces) ∧
        (e.hasTiling → (e.slotNum sys t).toNat * 8 ≤ b.tilingDataOffset) ∧
        ∀ x ∈ e.slotPart sys t b :: e.argParts sys t b, (ofNat x.1 x.2).Inside size := by
  by_cases hreads : e.Reads
  · rw [argSpans_eq hreads, and_iff_right hreads, forall_mem_cons,
      ← and_assoc (b := (ofNat _ _).Inside size), ← slots_inside]
    unfold argParts
    dsimp only
    rw [forall_mem_append, forall_mem_cons, ← mc2_inside]
    by_cases hplaces : e.hasPlaces
    · obtain ⟨spans, hspans, hinside⟩ :=
        places_inside sys size (e.ptr sys t b) e.cargo.length hplaces
      rw [hspans, and_iff_right fun _ => hplaces]
      simp only [Option.map_some, Option.some.injEq, exists_eq_left', forall_mem_append,
        forall_mem_cons, ← hinside]
    · obtain ⟨hrows, htilingPlace, hparts⟩ :=
        no_places sys (e.ptr sys t b) e.cargo.length hplaces
      rw [hrows, htilingPlace, hparts]
      by_cases hcargo : e.cargo = []
      · rw [if_pos (length_eq_zero_iff.mpr hcargo), and_iff_right (absurd hcargo)]
        simp only [Option.map_some, Option.some.injEq, exists_eq_left', forall_mem_append,
          forall_mem_cons, not_mem_nil, IsEmpty.forall_iff, implies_true, true_and]
      · rw [if_neg fun h => hcargo (length_eq_zero_iff.mp h)]
        exact iff_of_false nofun fun h => hplaces (h.1 hcargo)
  · rw [argSpans_none hreads]
    exact iff_of_false nofun fun h => hreads h.1

/-- The writes stay inside the buffer just when there is room for every part of it. -/
theorem writesInside_iff : e.WritesInside sys t b ↔ e.Room sys t b := by
  unfold WritesInside Room prepareParamsExt
  split
  next => exact iff_of_true ⟨[], rfl, nofun⟩ trivial
  next =>
    split
    next => exact iff_of_true ⟨[], rfl, nofun⟩ trivial
    next =>
      split
      next =>
        simp only [Option.some.injEq, exists_eq_left', tilingSpans_inside]
      next =>
        have hroom : e.Fits sys t b ↔ reach (e.tilingParts sys t b) ≤ b.size ∧
            (e.Reads ∧ (e.cargo ≠ [] → e.hasPlaces) ∧
              (e.hasTiling → (e.slotNum sys t).toNat * 8 ≤ b.tilingDataOffset) ∧
              ∀ x ∈ e.slotPart sys t b :: e.argParts sys t b,
                (ofNat x.1 x.2).Inside b.size) := by
          rw [reach_le]
          constructor
          · intro h
            have := forall_mem_append.mp (reach_le.mp h.room)
            exact ⟨this.1, h.reads, h.places, h.front, this.2⟩
          · intro ⟨htiling, hreads, hplaces, hfront, hparts⟩
            exact ⟨hreads, hplaces, hfront,
              reach_le.mpr (forall_mem_append.mpr ⟨htiling, hparts⟩)⟩
        rw [hroom, ← tilingSpans_inside, ← argSpans_inside]
        cases e.argSpans sys t b with
        | none => exact iff_of_false nofun (fun ⟨_, h⟩ => nomatch h)
        | some spans =>
          simp only [Option.bind_eq_bind, Option.bind_some, Option.some.injEq, exists_eq_left',
            forall_mem_append]

/-- Tiling gives the buffer its size, and every byte of the launch arguments is written in it,
if and only if the lists have the slots they say, and there is room. -/
theorem args_inside_iff (sys : ArgsSystem) (t : Tiled) (b : ArgsBuf) (e : ArgsExecutor) :
    (∃ b', e.tilingAndUpdateBinInfo sys b = some b' ∧ e.WritesInside sys t b') ↔
      ∃ b', e.tilingAndUpdateBinInfo sys b = some b' ∧ e.Room sys t b' := by
  simp only [writesInside_iff]

/-! ## Two launches that write outside -/

/-- A scalar in host memory, one byte long. -/
def hostBool : AclTensor :=
  { deviceTensor with
    viewShape := ⟨[], by decide⟩, storageShape := ⟨[], by decide⟩, data := [1], onDevice := false }

/-- A tensor with as many dimensions as there may be. -/
def manyDims : AclTensor := tensorOf ⟨List.replicate 25 1, by decide⟩

/-- An operator without communication, with a kernel for all shapes. -/
def plainExecutor (inputs outputs : Tensors) (oomFlag : Bool) (opParaSize : Nat) :
    ArgsExecutor where
  inputs := inputs
  outputs := outputs
  outPutShapeSize := 0
  opType := [65]
  isMc2 := false
  hcomHandle := 0
  isOutEmpty := false
  isZeroEleOutputLaunch := false
  foundStaticBin := false
  binInfo := ⟨false, oomFlag, opParaSize, false⟩

/-- No dump, every call succeeds. -/
def plainSystem : ArgsSystem := ⟨false, false, false, true, true, true⟩

/-- Three scalars, all workspaces and the detection of accesses out of bounds: the buffer is
sized for the scalars one behind the other. Ten tensors of a list: it keeps its size. -/
theorem args_overrun :
    (∃ ins outs b spans,
      (initIoCaches [.required, .required, .required]).clearExtTensors.addArgs .default
        [.tensor hostBool, .tensor hostBool, .tensor hostBool] = some ins ∧
      (initIoCaches [.required]).clearExtTensors.addArgs .default [.tensor deviceTensor] =
        some outs ∧
      (plainExecutor ins outs true 16384).tilingAndUpdateBinInfo plainSystem .new = some b ∧
      (plainExecutor ins outs true 16384).prepareParamsExt plainSystem
        ⟨16384, 20, Nat.le_refl _⟩ b = some spans ∧
      ∃ x ∈ spans, ¬ x.Inside b.size) ∧
    (∃ ins outs b spans,
      (initIoCaches [.dynamic]).clearExtTensors.addArgs .default
        [.tensorList (some (List.replicate 10 (some manyDims)))] = some ins ∧
      (initIoCaches [.required]).clearExtTensors.addArgs .default [.tensor deviceTensor] =
        some outs ∧
      (plainExecutor ins outs false 6144).tilingAndUpdateBinInfo plainSystem .new = some b ∧
      (plainExecutor ins outs false 6144).prepareParamsExt plainSystem
        ⟨6144, 0, Nat.zero_le _⟩ b = some spans ∧
      ∃ x ∈ spans, ¬ x.Inside b.size) :=
  ⟨⟨_, _, _, _, rfl, rfl, rfl, rfl, .ofNat 16816 17, by decide +kernel, by decide +kernel⟩,
    ⟨_, _, _, _, rfl, rfl, rfl, rfl, .ofNat 8200 2168, by decide +kernel, by decide +kernel⟩⟩

end ArgsExecutor

end OpBase.Indv
