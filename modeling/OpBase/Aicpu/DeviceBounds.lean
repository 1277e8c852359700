import OpBase.Aicpu.ExtMsgEnds
import OpBase.Aicpu.KernelContext
import OpBase.Lib.Extents

/-!
# What the device reads of the blocks it is given

`ParseIoAddr` compares lengths in 32 bits, of which the one of the block less its head and the
one of the addresses may have wrapped around, and it does not look at the length of the node
definition at all. `ParseExtMsg` compares each entry's length with what its type needs, but not
with what is left of the extend info. `UpdateTensor` compares the number of dimensions of a
tensor descriptor with 32, but not with zero, before it takes it for a `size_t`.

> `parsing_inside_iff`: each of the three reports an error or stays in its block if and only if
> its checks fail or the ones that it leaves out would hold.
-/

namespace OpBase.Aicpu

open List OpBase.Lib

variable {A : Adapter} {m : Mem} {paramHead : Nat}

/-! ## The argument block -/

/-- The head, the addresses, the length of the node definition and this itself. -/
def ioPieces (A : Adapter) (m : Mem) (paramHead : Nat) : Except KernelStatus (List Extent) := do
  let (ioAddrs, nodedef, nodedefLen) ← parseIoAddr A m paramHead
  .ok [⟨paramHead, A.paramHead.size⟩, ⟨paramHead + A.paramHead.size, 8 * ioAddrs.length⟩,
    ⟨nodedef - 4, 4⟩, ⟨nodedef, nodedefLen⟩]

/-- `ParseIoAddr` reports an error or stays in the length that the head states. -/
def IoInside (A : Adapter) (m : Mem) (paramHead : Nat) : Prop :=
  ∀ pieces, ioPieces A m paramHead = .ok pieces →
    ∀ p ∈ pieces, p.Within paramHead (A.paramHead.get m paramHead .length)

/-- The block is as long as its parts, or the lengths it has in 32 bits are refused. -/
def IoFits (A : Adapter) (m : Mem) (paramHead : Nat) : Prop :=
  let length := A.paramHead.get m paramHead .length
  let ioAddrNum := A.paramHead.get m paramHead .ioAddrNum
  A.paramHead.size + 8 * ioAddrNum + 4
      + m.load (paramHead + A.paramHead.size + 8 * ioAddrNum) 4 ≤ length ∨
    (2 ^ 32 + length - A.paramHead.size % 2 ^ 32) % 2 ^ 32 < 8 * ioAddrNum % 2 ^ 32 + 4

theorem load_lt (m : Mem) : ∀ (a w : Nat), m.load a w < 256 ^ w
  | _, 0 => Nat.one_pos
  | a, w + 1 => by
    have ih := load_lt m (a + 1) w
    have hb := (m a).toNat_lt
    rw [Mem.load, Nat.pow_succ']
    omega

theorem parseIoAddr_eq (A : Adapter) (m : Mem) (paramHead : Nat) : parseIoAddr A m paramHead =
    if (2 ^ 32 + A.paramHead.get m paramHead .length - A.paramHead.size % 2 ^ 32) % 2 ^ 32 <
        8 * A.paramHead.get m paramHead .ioAddrNum % 2 ^ 32 + 4 then .error .paramInvalid
    else .ok ((List.range (A.paramHead.get m paramHead .ioAddrNum)).map
        (m.word (paramHead + A.paramHead.size)),
      paramHead + A.paramHead.size + 8 * A.paramHead.get m paramHead .ioAddrNum % 2 ^ 32 + 4,
      m.load (paramHead + A.paramHead.size
        + 8 * A.paramHead.get m paramHead .ioAddrNum % 2 ^ 32) 4) := by
  unfold parseIoAddr takeIoAddrs
  dsimp only
  generalize A.paramHead.get m paramHead .ioAddrNum = n
  generalize (2 ^ 32 + A.paramHead.get m paramHead .length - A.paramHead.size % 2 ^ 32) % 2 ^ 32 = r
  rw [Nat.mul_comm n 8]
  by_cases hn : 0 < n
  · rw [if_pos hn]
    by_cases hroom : r < 8 * n % 2 ^ 32
    · rw [if_pos hroom, if_pos (by omega)]
      rfl
    · rw [if_neg hroom]
      by_cases hlen : r < 8 * n % 2 ^ 32 + 4
      · rw [if_pos hlen]
        exact if_pos (show r - 8 * n % 2 ^ 32 < 4 by omega)
      · rw [if_neg hlen]
        exact if_neg (show ¬ r - 8 * n % 2 ^ 32 < 4 by omega)
  · obtain rfl : n = 0 := by omega
    rw [if_neg hn]
    rfl

/-- The addresses and the length are read inside the block just when they fit. -/
theorem ioInside_iff : IoInside A m paramHead ↔ IoFits A m paramHead := by
  have hlt : A.paramHead.get m paramHead .length < 256 ^ 4 := load_lt m _ _
  unfold IoInside IoFits ioPieces
  rw [parseIoAddr_eq]
  dsimp only
  generalize A.paramHead.get m paramHead .ioAddrNum = n
  generalize A.paramHead.get m paramHead .length = length at hlt ⊢
  generalize A.paramHead.size = S
  by_cases hroom : (2 ^ 32 + length - S % 2 ^ 32) % 2 ^ 32 < 8 * n % 2 ^ 32 + 4
  · rw [if_pos hroom]
    exact iff_of_true (fun pieces h => nomatch h) (Or.inr hroom)
  · rw [if_neg hroom, or_iff_left hroom]
    constructor
    · intro h
      have h := h _ rfl
      rw [forall_mem_cons, forall_mem_cons, forall_mem_cons, forall_mem_singleton] at h
      obtain ⟨-, ⟨-, haddrs⟩, -, -, hnodedef⟩ := h
      dsimp only at haddrs hnodedef
      rw [length_map, length_range] at haddrs
      -- the addresses are inside, so their length has not wrapped around
      have hwrap : 8 * n % 2 ^ 32 = 8 * n := by omega
      rw [hwrap] at hnodedef
      omega
    · intro h pieces hpieces
      obtain rfl := Except.ok.inj hpieces
      have hwrap : 8 * n % 2 ^ 32 = 8 * n := by omega
      rw [hwrap, forall_mem_cons, forall_mem_cons, forall_mem_cons, forall_mem_singleton]
      unfold Extent.Within
      dsimp only
      rw [length_map, length_range]
      omega

/-! ## The extend info -/

/-- A field of the structure at `a`. -/
def fieldPiece {F : Type} {width : F → Nat} (P : Packed F width) (a : Nat) (f : F) : Extent :=
  ⟨a + P.off f, width f⟩

/-- What is read of the body of an entry, or pointed at. -/
def bodyPieces (A : Adapter) (unknownShape : Bool) (infoType infoLen body : Nat) : List Extent :=
  match A.typeOf? infoType with
  | some .inputShape | some .outputShape =>
    if unknownShape then
      Extent.items body A.shapeAndType.size (infoLen / A.shapeAndType.size) else []
  | some .sessionInfo => [fieldPiece A.sessionInfo body .kernelId]
  | some .bitmap => [⟨body, 8⟩]
  | some .topicType => [⟨body, 4⟩]
  | some .asyncWait =>
    [fieldPiece A.asyncWait body .waitType, fieldPiece A.asyncWait body .waitId]
  | some .unknownShapeInputIndex | some .unknownShapeOutputIndex =>
    Extent.items body 4 (infoLen / 4)
  | some .workspaceInfo =>
    [fieldPiece A.workspaceInfo body .size, fieldPiece A.workspaceInfo body .addr]
  | some .shapeType | some .opName | none => []

/-- How far the body is read. -/
def bodyEnd (A : Adapter) (unknownShape : Bool) (infoType infoLen : Nat) : Nat :=
  match A.typeOf? infoType with
  | some .inputShape | some .outputShape => if unknownShape then infoLen else 0
  | some .sessionInfo => A.sessionInfo.off .kernelId + 8
  | some .bitmap => 8
  | some .topicType => 4
  | some .asyncWait => max (A.asyncWait.off .waitType + 1) (A.asyncWait.off .waitId + 4)
  | some .unknownShapeInputIndex | some .unknownShapeOutputIndex => infoLen
  | some .workspaceInfo => max (A.workspaceInfo.off .size + 8) (A.workspaceInfo.off .addr + 8)
  | some .shapeType | some .opName | none => 0

section Entry

variable (A m) (paramHead : Nat) (c : Nat × Bool)

/-- The type and the length of the entry at an offset. -/
def entryHead : Nat × Nat :=
  let extInfo := A.paramHead.get m paramHead .extInfoAddr + c.1
  (A.extInfo.get m extInfo .type, A.extInfo.get m extInfo .len)

/-- The head of the entry, and what is taken of its body. -/
def entryPieces : List Extent :=
  let extInfo := A.paramHead.get m paramHead .extInfoAddr + c.1
  ⟨extInfo, A.extInfo.size⟩ :: bodyPieces A c.2 (entryHead A m paramHead c).1
    (entryHead A m paramHead c).2 (extInfo + A.extInfo.size)

end Entry

/-- The entries that the loop of `ParseExtMsg` comes to. -/
def Reached (A : Adapter) (m : Mem) (paramHead : Nat) (msg : ExtInfoMsg) (c : Nat × Bool) : Prop :=
  Relation.ReflTransGen (Steps (nextEntry A m paramHead)) (0, msg.unknownShape) c

/-- `ParseExtMsg` reports an error or stays in the extend info at every entry. -/
def ExtInside (A : Adapter) (m : Mem) (paramHead : Nat) (msg : ExtInfoMsg) : Prop :=
  (∃ fuel e, parseExtMsg A m paramHead fuel msg = some (.error e)) ∨
    ∀ c, Reached A m paramHead msg c → (nextEntry A m paramHead c).isSome = true →
      ∀ p ∈ entryPieces A m paramHead c, p.Within (A.paramHead.get m paramHead .extInfoAddr)
        (A.paramHead.get m paramHead .extInfoLength)

/-- An entry is refused, or each one is as long as what is taken of it. -/
def ExtFits (A : Adapter) (m : Mem) (paramHead : Nat) (msg : ExtInfoMsg) : Prop :=
  (∃ c, Reached A m paramHead msg c ∧ Refused A.extInfo (accepted A m) m
      (A.paramHead.get m paramHead .extInfoAddr) (A.paramHead.get m paramHead .extInfoLength) c) ∨
    ∀ c, Reached A m paramHead msg c → (nextEntry A m paramHead c).isSome = true →
      c.1 + A.extInfo.size
          + bodyEnd A c.2 (entryHead A m paramHead c).1 (entryHead A m paramHead c).2
        ≤ A.paramHead.get m paramHead .extInfoLength

theorem shapes_dvd {unknownShape k : Bool} {infoType infoLen extInfo : Nat}
    (htype : A.typeOf? infoType = some .inputShape ∨ A.typeOf? infoType = some .outputShape)
    (hunknown : unknownShape = true)
    (h : accepted A m unknownShape infoType infoLen extInfo = some k) :
    A.shapeAndType.size ∣ infoLen := by
  unfold accepted parseExtEntry at h
  split at h
  · cases h
  · apply Nat.dvd_of_mod_eq_zero
    by_contra hlen
    rcases htype with ht | ht <;>
    · rw [ht] at h
      dsimp only at h
      unfold parseExtShapeAndType at h
      rw [hunknown] at h
      rw [if_neg (by decide), if_pos hlen] at h
      cases h

theorem indices_dvd {unknownShape k : Bool} {infoType infoLen extInfo : Nat}
    (htype : A.typeOf? infoType = some .unknownShapeInputIndex ∨
      A.typeOf? infoType = some .unknownShapeOutputIndex)
    (h : accepted A m unknownShape infoType infoLen extInfo = some k) : 4 ∣ infoLen := by
  unfold accepted parseExtEntry at h
  split at h
  · cases h
  · apply Nat.dvd_of_mod_eq_zero
    by_contra hlen
    rcases htype with ht | ht <;>
    · rw [ht] at h
      dsimp only at h
      unfold parseExtUnknownShapeIndex at h
      rw [if_pos hlen] at h
      cases h

theorem fieldPiece_inside {F : Type} {width : F → Nat} {P : Packed F width} {base total a : Nat}
    {f : F} (hbase : base ≤ a) :
    (fieldPiece P a f).Within base total ↔ a + (P.off f + width f) ≤ base + total := by
  unfold fieldPiece Extent.Within
  dsimp only
  omega

/-- What is taken of an entry that is accepted lies inside just when its end does. -/
theorem bodyPieces_inside {base total body infoType infoLen extInfo : Nat} {unknownShape k : Bool}
    (hbase : base ≤ body) (hroom : body ≤ base + total)
    (h : accepted A m unknownShape infoType infoLen extInfo = some k) :
    (∀ p ∈ bodyPieces A unknownShape infoType infoLen body, p.Within base total) ↔
      body + bodyEnd A unknownShape infoType infoLen ≤ base + total := by
  have hshapes : A.typeOf? infoType = some .inputShape ∨ A.typeOf? infoType = some .outputShape →
      ((∀ p ∈ (if unknownShape then
          Extent.items body A.shapeAndType.size (infoLen / A.shapeAndType.size) else []),
        p.Within base total) ↔
      body + (if unknownShape then infoLen else 0) ≤ base + total) := by
    intro htype
    by_cases hunknown : unknownShape = true
    · rw [if_pos hunknown, if_pos hunknown, Extent.items_within hbase hroom,
        Nat.mul_div_cancel' (shapes_dvd htype hunknown h)]
    · rw [if_neg hunknown, if_neg hunknown]
      exact iff_of_true (fun p hp => nomatch hp) hroom
  have hindices : A.typeOf? infoType = some .unknownShapeInputIndex ∨
      A.typeOf? infoType = some .unknownShapeOutputIndex →
      ((∀ p ∈ Extent.items body 4 (infoLen / 4), p.Within base total) ↔
        body + infoLen ≤ base + total) := by
    intro htype
    rw [Extent.items_within hbase hroom, Nat.mul_div_cancel' (indices_dvd htype h)]
  have hnone : (∀ p ∈ ([] : List Extent), p.Within base total) ↔ body + 0 ≤ base + total :=
    iff_of_true (fun p hp => nomatch hp) hroom
  unfold bodyPieces bodyEnd
  split
  next ht => exact hshapes (Or.inl ht)
  next ht => exact hshapes (Or.inr ht)
  · rw [forall_mem_singleton, fieldPiece_inside hbase]
    rfl
  · rw [forall_mem_singleton]
    exact and_iff_right hbase
  · rw [forall_mem_singleton]
    exact and_iff_right hbase
  · rw [forall_mem_cons, forall_mem_singleton, fieldPiece_inside hbase, fieldPiece_inside hbase]
    show body + (_ + 1) ≤ _ ∧ body + (_ + 4) ≤ _ ↔ _
    omega
  next ht => exact hindices (Or.inl ht)
  next ht => exact hindices (Or.inr ht)
  · rw [forall_mem_cons, forall_mem_singleton, fieldPiece_inside hbase, fieldPiece_inside hbase]
    show body + (_ + 8) ≤ _ ∧ body + (_ + 8) ≤ _ ↔ _
    omega
  · exact hnone
  · exact hnone
  · exact hnone

theorem nextEntry_isSome {paramHead : Nat} {c : Nat × Bool}
    (h : (nextEntry A m paramHead c).isSome = true) :
    c.1 + A.extInfo.size ≤ A.paramHead.get m paramHead .extInfoLength ∧
    ∃ k, accepted A m c.2 (entryHead A m paramHead c).1 (entryHead A m paramHead c).2
      (A.paramHead.get m paramHead .extInfoAddr + c.1) = some k := by
  unfold nextEntry advance at h
  split at h
  next hroom =>
    rw [Option.isSome_map] at h
    exact ⟨hroom, Option.isSome_iff_exists.mp h⟩
  · cases h

theorem extInside_iff (A : Adapter) (m : Mem) (paramHead : Nat) (msg : ExtInfoMsg) :
    ExtInside A m paramHead msg ↔ ExtFits A m paramHead msg := by
  refine or_congr (walk_error_iff accepted_decides 0 _) (forall_congr' fun c =>
    imp_congr_right fun _ => imp_congr_right fun hnext => ?_)
  obtain ⟨hroom, k, hk⟩ := nextEntry_isSome hnext
  generalize hbase : A.paramHead.get m paramHead .extInfoAddr = base at hk
  generalize A.paramHead.get m paramHead .extInfoLength = total at hroom
  unfold entryPieces
  dsimp only
  rw [hbase, forall_mem_cons, bodyPieces_inside (by omega) (by omega) hk]
  unfold Extent.Within
  dsimp only
  omega

/-! ## The tensor descriptors -/

section Descs

variable (A) (p : Params)

/-- The descriptor of input `i`, if its address is that of one. -/
def inputDesc (i : Nat) : Option Nat :=
  (p.msg.unknownShapeInputIndexAddr.lookup i).map fun _ => (p.ioAddrs.getD i 0).toNat

/-- `static_cast<size_t>(tensor_desc->shape[0])` -/
def dimCount (desc : Nat) : Nat := ((descWord p.mem desc 0).toInt % 2 ^ 64).toNat

/-- What is read of the `shape` of a descriptor: the number of dimensions, and that many behind
it unless there are too many. -/
def shapePieces (desc : Nat) : List (Nat × Extent) :=
  (desc, ⟨desc + descShape, 8⟩) ::
    if (kMaxDimSize : Int) < (descWord p.mem desc 0).toInt then []
    else [(desc, ⟨desc + descShape + 8, 8 * dimCount p desc⟩)]

/-- What `UpdateTensor` reads for the inputs from `i` on, up to the first that is refused. -/
def descPieces : Nat → List CpuTensor → List (Nat × Extent)
  | _, [] => []
  | i, t :: ts => (inputDesc p i).elim [] (shapePieces p) ++
    match updateInput A p i t with
    | some (_, true) => descPieces (i + 1) ts
    | _ => []

/-- `UpdateTensor` reports an error or stays in the `shape` of the descriptors. -/
def UpdateInside (ctx : CpuKernelContext) : Prop :=
  (∃ ctx', updateTensor A p ctx = some (ctx', false)) ∨ ∀ r ∈ descPieces A p 0 ctx.inputs,
      r.2.Within (r.1 + descShape) (8 * (kMaxDimSize + 1))

/-- There are as many addresses, and shapes where they count, as tensors. -/
def SizesAgree (ctx : CpuKernelContext) : Prop :=
  p.ioAddrs.length = ctx.inputs.length + ctx.outputs.length ∧
    (p.msg.unknownShape = true → p.msg.inputShapeAndType.length = ctx.inputs.length ∧
      p.msg.outputShapeAndType.length = ctx.outputs.length)

/-- Input `i` is not refused: not too many dimensions, nor a negative number of elements. -/
def TakesInput (i : Nat) (t : CpuTensor) : Prop :=
  (∀ desc, inputDesc p i = some desc → (descWord p.mem desc 0).toInt ≤ kMaxDimSize) ∧
    0 ≤ numElements ((inputDims A p i).getD t.dims)

/-- No number of dimensions is negative, up to the first input that is refused. -/
def CountsFit : Nat → List CpuTensor → Prop
  | _, [] => True
  | i, t :: ts =>
    (∀ desc, inputDesc p i = some desc → 0 ≤ (descWord p.mem desc 0).toInt) ∧
      (TakesInput A p i t → CountsFit (i + 1) ts)

end Descs

variable {p : Params} {i : Nat} {t : CpuTensor} {ctx : CpuKernelContext}

theorem placeInput_none (hdesc : inputDesc p i = none) :
    placeInput p i t = some ({ t with data := p.ioAddrs.getD i 0 }, true) := by
  unfold placeInput
  rw [Option.map_eq_none_iff.mp hdesc]

theorem placeInput_some {desc : Nat} (hdesc : inputDesc p i = some desc) :
    placeInput p i t =
      if (kMaxDimSize : Int) < (descWord p.mem desc 0).toInt then some (t, false)
      else if (descWord p.mem desc 0).toInt < 0 then none
      else some ({ t with dims := descDims p.mem desc, data := p.mem.word desc 0 }, true) := by
  obtain ⟨v, hlookup, rfl⟩ := Option.map_eq_some_iff.mp hdesc
  unfold placeInput
  rw [hlookup]

theorem finishInput_snd (i : Nat) (t : CpuTensor) : (finishInput A p i t).2 = true ↔
    0 ≤ numElements (setShape A p p.msg.inputShapeAndType i t).dims := by
  unfold finishInput
  dsimp only
  split
  next h => exact iff_of_false Bool.false_ne_true (by omega)
  next h => exact iff_of_true rfl (by omega)

theorem updateInput_placed {t₁ : CpuTensor} (h : placeInput p i t = some (t₁, true)) :
    updateInput A p i t = some (finishInput A p i t₁) ∧
      ((finishInput A p i t₁).2 = true ↔ 0 ≤ numElements ((inputDims A p i).getD t.dims)) := by
  refine ⟨?_, ?_⟩
  · unfold updateInput
    rw [h]
    rfl
  · rw [finishInput_snd, setShape_placed h]

theorem updateInput_none {desc : Nat} (hdesc : inputDesc p i = some desc)
    (hneg : (descWord p.mem desc 0).toInt < 0) : updateInput A p i t = none := by
  unfold updateInput
  rw [placeInput_some hdesc, if_neg (by omega), if_pos hneg]
  rfl

theorem updateInput_some (A : Adapter) (t : CpuTensor)
    (hcount : ∀ desc, inputDesc p i = some desc → 0 ≤ (descWord p.mem desc 0).toInt) :
    ∃ t' ok, updateInput A p i t = some (t', ok) ∧ (ok = true ↔ TakesInput A p i t) := by
  unfold TakesInput
  cases hdesc : inputDesc p i with
  | none =>
    obtain ⟨heq, hok⟩ := updateInput_placed (A := A) (placeInput_none (t := t) hdesc)
    exact ⟨_, _, heq, hok.trans (and_iff_right fun _ h => nomatch h).symm⟩
  | some desc =>
    have h0 := hcount desc hdesc
    have hall : (∀ d, some desc = some d → (descWord p.mem d 0).toInt ≤ kMaxDimSize) ↔
        (descWord p.mem desc 0).toInt ≤ kMaxDimSize :=
      ⟨fun h => h desc rfl, fun h d hd => Option.some.inj hd ▸ h⟩
    have hplace := placeInput_some (t := t) hdesc
    rw [hall]
    by_cases hmax : (kMaxDimSize : Int) < (descWord p.mem desc 0).toInt
    · rw [if_pos hmax] at hplace
      refine ⟨t, false, ?_, iff_of_false Bool.false_ne_true (fun h => by omega)⟩
      unfold updateInput
      rw [hplace]
      rfl
    · rw [if_neg hmax, if_neg (by omega)] at hplace
      obtain ⟨heq, hok⟩ := updateInput_placed (A := A) hplace
      exact ⟨_, _, heq, hok.trans (and_iff_right (by omega)).symm⟩

theorem updateEach_none_iff (A : Adapter) (p : Params) : ∀ (i : Nat) (ts : List CpuTensor),
    updateEach (updateInput A p) i ts = none ↔ ¬ CountsFit A p i ts
  | _, [] => iff_of_false (Option.some_ne_none _) (not_not_intro trivial)
  | i, t :: ts => by
    rw [updateEach, CountsFit]
    by_cases hcount : ∀ desc, inputDesc p i = some desc → 0 ≤ (descWord p.mem desc 0).toInt
    · obtain ⟨t', ok, heq, hok⟩ := updateInput_some A t hcount
      rw [and_iff_right hcount, ← hok, heq]
      cases ok with
      | false => exact iff_of_false (Option.some_ne_none _) (not_not_intro fun h => nomatch h)
      | true =>
        rw [forall_prop_of_true rfl, ← updateEach_none_iff A p (i + 1) ts]
        show ((updateEach (updateInput A p) (i + 1) ts).bind fun r =>
          some (t' :: r.1, r.2)) = none ↔ _
        cases updateEach (updateInput A p) (i + 1) ts with
        | none => exact iff_of_true rfl rfl
        | some r => exact iff_of_false (Option.some_ne_none _) (Option.some_ne_none _)
    · refine iff_of_true ?_ fun h => hcount h.1
      obtain ⟨desc, hdesc, hneg⟩ : ∃ desc, inputDesc p i = some desc ∧
          (descWord p.mem desc 0).toInt < 0 := by
        by_contra hall
        exact hcount fun desc hdesc => not_lt.mp fun hneg => hall ⟨desc, hdesc, hneg⟩
      rw [updateInput_none hdesc hneg]
      rfl

theorem dimCount_le_iff (p : Params) (desc : Nat)
    (hmax : (descWord p.mem desc 0).toInt ≤ kMaxDimSize) :
    dimCount p desc ≤ kMaxDimSize ↔ 0 ≤ (descWord p.mem desc 0).toInt := by
  have hlow := (descWord p.mem desc 0).le_toInt
  unfold dimCount
  unfold kMaxDimSize at hmax ⊢
  omega

theorem shapePieces_inside (p : Params) (desc : Nat) : (∀ r ∈ shapePieces p desc,
    r.2.Within (r.1 + descShape) (8 * (kMaxDimSize + 1))) ↔
      0 ≤ (descWord p.mem desc 0).toInt := by
  have hfirst : Extent.Within ⟨desc + descShape, 8⟩ (desc + descShape) (8 * (kMaxDimSize + 1)) :=
    ⟨le_refl _, by unfold kMaxDimSize; dsimp only; omega⟩
  unfold shapePieces
  rw [forall_mem_cons, and_iff_right hfirst]
  by_cases hmax : (kMaxDimSize : Int) < (descWord p.mem desc 0).toInt
  · rw [if_pos hmax]
    exact iff_of_true (fun r hr => nomatch hr) (by omega)
  · rw [if_neg hmax, forall_mem_singleton, ← dimCount_le_iff p desc (by omega)]
    unfold Extent.Within
    dsimp only
    omega

theorem descPieces_inside (A : Adapter) (p : Params) : ∀ (i : Nat) (ts : List CpuTensor),
    (∀ r ∈ descPieces A p i ts, r.2.Within (r.1 + descShape) (8 * (kMaxDimSize + 1))) ↔
      CountsFit A p i ts
  | _, [] => iff_of_true (fun r hr => nomatch hr) trivial
  | i, t :: ts => by
    rw [descPieces, CountsFit, forall_mem_append]
    have hfirst : (∀ r ∈ (inputDesc p i).elim [] (shapePieces p),
          r.2.Within (r.1 + descShape) (8 * (kMaxDimSize + 1))) ↔
        ∀ desc, inputDesc p i = some desc → 0 ≤ (descWord p.mem desc 0).toInt := by
      cases inputDesc p i with
      | none => exact iff_of_true (fun r hr => nomatch hr) (fun _ h => nomatch h)
      | some desc =>
        refine (shapePieces_inside p desc).trans ⟨fun h d hd => Option.some.inj hd ▸ h, fun h => ?_⟩
        exact h desc rfl
    rw [hfirst]
    refine and_congr_right fun hcount => ?_
    obtain ⟨t', ok, heq, hok⟩ := updateInput_some A t hcount
    rw [heq, ← hok]
    cases ok with
    | false => exact iff_of_true (fun r hr => nomatch hr) (fun h => nomatch h)
    | true =>
      rw [forall_prop_of_true rfl]
      exact descPieces_inside A p (i + 1) ts

theorem updateOutputs_isSome (A : Adapter) (p : Params) (n : Nat) : ∀ (i : Nat)
    (ts : List CpuTensor), (updateEach (updateOutput A p n) i ts).isSome = true
  | _, [] => rfl
  | i, t :: ts => by
    rw [updateEach]
    show (if (finishOutput A p i (placeOutput p n i t)).2 = true then
      (updateEach (updateOutput A p n) (i + 1) ts).bind _ else _).isSome = true
    split
    · obtain ⟨r, hr⟩ := Option.isSome_iff_exists.mp (updateOutputs_isSome A p n (i + 1) ts)
      rw [hr]
      rfl
    · rfl

theorem updateTensor_refused (h : ¬ SizesAgree p ctx) :
    updateTensor A p ctx = some (ctx, false) := by
  unfold updateTensor
  split
  next => rfl
  next haddrs =>
    split
    next => rfl
    next hshapes =>
      refine absurd ⟨not_not.mp haddrs, fun hunknown => ?_⟩ h
      by_contra hne
      exact hshapes ⟨hunknown, not_and_or.mp hne⟩

theorem updateTensor_none_iff (h : SizesAgree p ctx) :
    updateTensor A p ctx = none ↔ updateEach (updateInput A p) 0 ctx.inputs = none := by
  have hshapes : ¬ (p.msg.unknownShape = true ∧
      (p.msg.inputShapeAndType.length ≠ ctx.inputs.length ∨
        p.msg.outputShapeAndType.length ≠ ctx.outputs.length)) := fun hne =>
    hne.2.elim (fun hin => hin (h.2 hne.1).1) fun hout => hout (h.2 hne.1).2
  unfold updateTensor
  rw [if_neg (not_not_intro h.1), if_neg hshapes]
  cases updateEach (updateInput A p) 0 ctx.inputs with
  | none => exact iff_of_true rfl rfl
  | some r =>
    refine iff_of_false (fun hnone => ?_) (Option.some_ne_none _)
    obtain ⟨inputs, ok⟩ := r
    obtain ⟨r', hr'⟩ := Option.isSome_iff_exists.mp
      (updateOutputs_isSome A p ctx.inputs.length 0 ctx.outputs)
    cases ok with
    | false => cases hnone
    | true =>
      dsimp only [Option.bind_some, bind] at hnone
      rw [hr'] at hnone
      cases hnone

theorem updateInside_iff (A : Adapter) (p : Params) (ctx : CpuKernelContext) :
    UpdateInside A p ctx ↔ (SizesAgree p ctx → CountsFit A p 0 ctx.inputs) := by
  unfold UpdateInside
  rw [descPieces_inside]
  constructor
  · rintro (⟨ctx', h⟩ | h) hsizes
    · by_contra hcounts
      rw [(updateTensor_none_iff hsizes).mpr ((updateEach_none_iff A p _ _).mpr hcounts)] at h
      cases h
    · exact h
  · intro h
    by_cases hsizes : SizesAgree p ctx
    · exact Or.inr (h hsizes)
    · exact Or.inl ⟨ctx, updateTensor_refused hsizes⟩

/-! ## All three -/

/-- Each of the three reports an error or stays in its block just when the lengths it leaves out of
its checks are those of the block. -/
theorem parsing_inside_iff (A : Adapter) (m : Mem) (paramHead : Nat) (msg : ExtInfoMsg)
    (p : Params) (ctx : CpuKernelContext) :
    (IoInside A m paramHead ∧ ExtInside A m paramHead msg ∧ UpdateInside A p ctx) ↔
      (IoFits A m paramHead ∧ ExtFits A m paramHead msg ∧
        (SizesAgree p ctx → CountsFit A p 0 ctx.inputs)) :=
  and_congr ioInside_iff (and_congr (extInside_iff A m paramHead msg) (updateInside_iff A p ctx))

/-- A head that states no length is taken for one with 2³² bytes less the head behind it; a
bitmap of which only the head is in the extend info is read; a descriptor with -1 dimensions
is read without end. -/
theorem parsing_not_inside :
    ¬ IoInside packedAdapter (fun _ => 0) 0 ∧
    ¬ ExtInside packedAdapter (Str.ofList
      [28, 0, 0, 0, 0, 0, 0, 0, 8, 0, 0, 0, 20, 0, 0, 0, 0, 0, 0, 0,
        6, 0, 0, 0, 8, 0, 0, 0]).byte 0 {} ∧
    ¬ UpdateInside packedAdapter
      { mem := fun _ => 255, ioAddrs := [0], nodeDef := [],
        msg := { unknownShapeInputIndexAddr := [(0, 0)] } }
      { opType := [], inputs := [⟨0, [], 0, 0⟩], outputs := [], attrs := fun _ => none,
        deviceType := .device, workspaceSize := 0, workspaceAddr := 0 } := by
  refine ⟨fun h => ?_, fun h => ?_, fun h => ?_⟩
  · rw [ioInside_iff] at h
    revert h
    unfold IoFits
    decide
  · rw [extInside_iff] at h
    have hfirst : nextEntry packedAdapter (Str.ofList
      [28, 0, 0, 0, 0, 0, 0, 0, 8, 0, 0, 0, 20, 0, 0, 0, 0, 0, 0, 0,
        6, 0, 0, 0, 8, 0, 0, 0]).byte 0 (0, false) = some (16, true) := by decide
    have hsecond : nextEntry packedAdapter (Str.ofList
      [28, 0, 0, 0, 0, 0, 0, 0, 8, 0, 0, 0, 20, 0, 0, 0, 0, 0, 0, 0,
        6, 0, 0, 0, 8, 0, 0, 0]).byte 0 (16, true) = none := by decide
    rcases h with ⟨c, hc, href⟩ | h
    · -- the entry is accepted, and there is no room for a second one
      rcases Relation.ReflTransGen.cases_head hc with rfl | ⟨d, hd, hdc⟩
      · revert href
        unfold Refused
        decide
      · obtain rfl := Option.some.inj (hfirst.symm.trans hd)
        rcases Relation.ReflTransGen.cases_head hdc with rfl | ⟨e, he, -⟩
        · revert href
          unfold Refused
          decide
        · exact absurd (hsecond.symm.trans he) (by simp)
    · have h := h _ Relation.ReflTransGen.refl (by rw [hfirst]; rfl)
      revert h
      decide
  · rw [updateInside_iff] at h
    have h := (h ⟨rfl, fun h => nomatch h⟩).1 0 rfl
    revert h
    decide

end OpBase.Aicpu
