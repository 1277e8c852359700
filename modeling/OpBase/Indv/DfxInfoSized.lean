import OpBase.Indv.DfxInfo
import OpBase.Indv.PointerSlots

/-!
# The exception-dump info is sized exactly

Every parameter has one size word, whatever slot the walk over the slots reads for it, so the
size words always fill their part. The shape words are counted at the slot a parameter has and
written from the slot the walk has come to.

> `dfx_info_sized`: the words reserved are those written, each once, if and only if the walk
> stays inside the slots and the shapes at the slots it reads take as many words as those of
> the parameters' own slots. They do if the walk stays in step and no shape has a number of
> elements below zero.
-/

namespace OpBase.Indv

open List OpBase.Lib
open Option (bind_eq_bind bind_eq_some_iff bind_some some.inj)

/-! ## What is to hold, and when it does -/

variable {j : Nat}

namespace Tensors

/-- Where the walk goes on from slot `j`. -/
def nextSlot (ts : Tensors) (p : ParamInstance) (j : Nat) : Nat :=
  match ts.contents[j]? with
  | some (some _) => if p.cfgNum = .dynamic then j + p.num else j + 1
  | _ => j + 1

/-- The slots the walk comes to, one for each parameter. -/
def slotsRead (ts : Tensors) : Nat → List ParamInstance → List Nat
  | _, [] => []
  | j, p :: ps => j :: ts.slotsRead (ts.nextSlot p j) ps

/-- The slot is there, and so are those of the list it is taken for. -/
def Readable (ts : Tensors) (p : ParamInstance) (j : Nat) : Prop :=
  ∃ c, ts.contents[j]? = some c ∧ (c ≠ none → p.cfgNum = .dynamic → (ts.ownSlots p).isSome)

/-- Only a dynamic parameter that claims more slots than there are cannot be read. -/
theorem slot_unreadable {ts : Tensors} {p : ParamInstance} {slot : ExtTensor}
    (h : ¬ ts.Readable p j) (hslot : ts.extTensors[j]? = some slot) :
    ¬ slot.isNull ∧ p.cfgNum = .dynamic ∧ ts.ownSlots p = none := by
  have hc : ts.contents[j]? = some slot.content := by
    unfold contents
    rw [getElem?_map, hslot]
    rfl
  obtain ⟨hne, himp⟩ := Classical.not_imp.mp fun hread => h ⟨_, hc, hread⟩
  obtain ⟨hp, hown⟩ := Classical.not_imp.mp himp
  exact ⟨fun hnull => hne (isNull_of_content.mpr hnull), hp, Option.not_isSome_iff_eq_none.mp hown⟩

/-- A parameter that is no list has a slot. -/
def HasSlots (ts : Tensors) : Prop :=
  ∀ p ∈ ts.instances, p.cfgNum ≠ .dynamic → ∃ c, ts.contents[p.startIndex]? = some c

theorem length_slotsRead (ts : Tensors) : ∀ (ps : List ParamInstance) (j : Nat),
    (ts.slotsRead j ps).length = ps.length
  | [], _ => rfl
  | p :: ps, j => congrArg (· + 1) (length_slotsRead ts ps (ts.nextSlot p j))

/-- A loop over parameters that goes from slot to slot. It comes to its end if every slot can
be read; then `R` is about all of what its steps add. -/
theorem walk_slots {σ β γ : Type} {ts : Tensors} {f : Nat × σ → β → Option (Nat × σ)}
    (param : β → ParamInstance) (g : β → Nat → γ) (R : σ → σ → List γ → Prop)
    (hnil : ∀ s, R s s [])
    (hcons : ∀ {s s' s'' y ys}, R s s' [y] → R s' s'' ys → R s s'' (y :: ys))
    (hstep : ∀ x j s, ts.Readable (param x) j →
      ∃ s', f (j, s) x = some (ts.nextSlot (param x) j, s') ∧ R s s' [g x j])
    (hstop : ∀ x j s, ¬ ts.Readable (param x) j → f (j, s) x = none) :
    ∀ (xs : List β) (j : Nat) (s : σ),
    (List.Forall₂ ts.Readable (xs.map param) (ts.slotsRead j (xs.map param)) →
      ∃ last, xs.foldlM f (j, s) = some last ∧
        R s last.2 (List.zipWith g xs (ts.slotsRead j (xs.map param)))) ∧
    (¬ List.Forall₂ ts.Readable (xs.map param) (ts.slotsRead j (xs.map param)) →
      xs.foldlM f (j, s) = none) := by
  intro xs
  induction xs with
  | nil =>
    intro j s
    exact ⟨fun _ => ⟨_, rfl, hnil s⟩, fun h => absurd .nil h⟩
  | cons x xs ih =>
    intro j s
    rw [map_cons, slotsRead, forall₂_cons, foldlM_cons]
    by_cases hx : ts.Readable (param x) j
    · obtain ⟨s', hs', hR⟩ := hstep x j s hx
      obtain ⟨hread, hnone⟩ := ih (ts.nextSlot (param x) j) s'
      rw [hs', bind_eq_bind, bind_some]
      refine ⟨fun h => ?_, fun h => hnone fun hrest => h ⟨hx, hrest⟩⟩
      obtain ⟨last, hlast, hmore⟩ := hread h.2
      exact ⟨last, hlast, hcons hR hmore⟩
    · rw [hstop x j s hx]
      exact ⟨fun h => absurd h.1 hx, fun _ => rfl⟩

end Tensors

/-- The words of a shape; a scalar counts as one dimension. -/
def GertTensor.shapeWords (t : GertTensor) : Nat :=
  if t.storageShape.val.length = 0 then 2 else t.storageShape.val.length + 1

namespace DfxLaunch

open Tensors Streams

/-- The words reserved for a tensor. -/
def reserved (l : DfxLaunch) (t : GertTensor) : Nat :=
  if l.getShapeSize t.storageShape ≠ 0 then t.shapeWords else 0

/-- The words written for a tensor. -/
def written (l : DfxLaunch) (t : GertTensor) : Nat :=
  if 0 < l.getShapeSize t.storageShape then t.shapeWords else 0

/-- The words for a parameter if its tensor is in this slot; a list has none. -/
def wordsAt (l : DfxLaunch) (words : GertTensor → Nat) (isInput : Bool) (ts : Tensors)
    (x : ParamInstance × Nat) (slot : Nat) : Nat :=
  match ts.contents[slot]? with
  | some (some t) => if x.1.cfgNum ≠ .dynamic ∧ l.showsShape isInput x.2 then words t else 0
  | _ => 0

/-- The shape words of the parameters' own slots. -/
def ownWords (l : DfxLaunch) (isInput : Bool) (ts : Tensors) : Nat :=
  (ts.instances.zipIdx.map fun x => l.wordsAt l.reserved isInput ts x x.1.startIndex).sum

/-- The shape words of the slots the walk comes to. -/
def readWords (l : DfxLaunch) (isInput : Bool) (ts : Tensors) : Nat :=
  (List.zipWith (l.wordsAt l.written isInput ts) ts.instances.zipIdx
    (ts.slotsRead 0 ts.instances)).sum

/-- The size words. -/
def sizeWords (l : DfxLaunch) (inputs outputs : Tensors) : Nat :=
  inputs.instances.length + outputs.instances.length +
    ((if l.outPutShapeSize ≠ 0 then 1 else 0) + l.workspaceNum)

/-- What is reserved are the words for the handles and the words that are written, each of
these is written once, and all are inside. -/
def SizedExactly (l : DfxLaunch) (inputs outputs : Tensors) : Prop :=
  ∃ space s, l.prepareDfxInfo inputs outputs = some (space, s) ∧
    space.toNat = l.hcomHandle + s.writes.length ∧ s.cells.Nodup ∧
    ∀ i ∈ s.cells, i < space.toNat

/-- The walk stays inside the slots, and what it reads takes the words that are reserved. -/
structure Balanced (l : DfxLaunch) (inputs outputs : Tensors) : Prop where
  readInputs : List.Forall₂ inputs.Readable inputs.instances
    (inputs.slotsRead 0 inputs.instances)
  readOutputs : List.Forall₂ outputs.Readable outputs.instances
    (outputs.slotsRead 0 outputs.instances)
  words : (l.hcomHandle + (l.sizeWords inputs outputs +
      (l.ownWords true inputs + l.ownWords false outputs))) % 2 ^ 32 =
    l.hcomHandle + (l.sizeWords inputs outputs +
      (l.readWords true inputs + l.readWords false outputs))

/-- The walk moves over exactly the slots of each list: it has elements, and the first is not
null unless it is the only one; or it has none, no element count is left from an earlier launch
and a tensor comes next. -/
def KeepsStep (params : List Given) : Prop :=
  ∀ front x back, params = front ++ x :: back → x.1.cfgNum = .dynamic →
    (∃ e es, x.2.slots = e :: es ∧ (e = none → es = [])) ∨
    (x.2.slots = [] ∧ x.1.num = 0 ∧ ∃ t, (slotsOf back).head? = some (some t))

/-- The elements of every tensor that is given by itself can be counted. -/
def Countable (l : DfxLaunch) (args : List Arg) : Prop :=
  ∀ t, .tensor (some t) ∈ args → 0 ≤ l.getShapeSize t.viewShape

/-! ## Counting -/

variable {l : DfxLaunch} {isInput : Bool} {ts : Tensors} {opt : FormatCheckOption}
  {params rest : List Given}

theorem getIoShapeInfoSize_eq (l : DfxLaunch) (t : GertTensor) (space : UInt32) :
    l.getIoShapeInfoSize t space = space + (l.reserved t).toUInt32 := by
  unfold getIoShapeInfoSize reserved GertTensor.shapeWords
  split
  next =>
    dsimp only
    split
    next => rfl
    next => rw [Nat.toUInt32_eq, Nat.toUInt32_eq, UInt32.ofNat_add, UInt32.ofNat_toNat]
  next => exact (UInt32.add_zero space).symm

variable {x : ParamInstance × Nat} {s : Streams UInt64}

theorem getShapeInfoSize_eq (space : UInt32)
    (h : x.1.cfgNum ≠ .dynamic → ∃ c, ts.contents[x.1.startIndex]? = some c) :
    l.getShapeInfoSize isInput ts space x =
      some (space + (l.wordsAt l.reserved isInput ts x x.1.startIndex).toUInt32) := by
  have hzero : space + (0 : Nat).toUInt32 = space := UInt32.add_zero space
  unfold getShapeInfoSize wordsAt
  split
  next hp =>
    obtain ⟨c, hc⟩ := h hp
    obtain ⟨slot, hslot, hcontent⟩ := slot_of_content hc
    simp only [hslot, hc]
    cases c with
    | none =>
      rw [isNull_of_content.mp hcontent, Bool.not_true, Bool.false_and, if_neg Bool.false_ne_true,
        hzero]
    | some t =>
      obtain ⟨hnull, ht⟩ := rt2Tensor_of_content hcontent
      rw [hnull, ht, Bool.not_false, Bool.true_and]
      by_cases hshows : l.showsShape isInput x.2 = true
      · simp only [hshows, if_true, ne_eq, hp, not_false_eq_true, and_self, getIoShapeInfoSize_eq]
      · simp only [hshows, and_false, if_false, hzero, Bool.false_eq_true]
  next hp =>
    split
    next => rw [if_neg fun h => hp h.1, hzero]
    next => rw [hzero]

theorem getIoShapeSizes_eq (space : UInt32) (h : ts.HasSlots) :
    l.getIoShapeSizes isInput ts space = some (space + (l.ownWords isInput ts).toUInt32) := by
  have hfold : ∀ (xs : List (ParamInstance × Nat)) (space : UInt32),
      (∀ x ∈ xs, x.1.cfgNum ≠ .dynamic → ∃ c, ts.contents[x.1.startIndex]? = some c) →
      xs.foldlM (l.getShapeInfoSize isInput ts) space = some (space +
        (xs.map fun x => l.wordsAt l.reserved isInput ts x x.1.startIndex).sum.toUInt32) := by
    intro xs
    induction xs with
    | nil =>
      intro space _
      exact congrArg some (UInt32.add_zero space).symm
    | cons x xs ih =>
      intro space h
      rw [foldlM_cons, getShapeInfoSize_eq space (h x mem_cons_self),
        bind_eq_bind, bind_some, ih _ fun y hy => h y (mem_cons_of_mem x hy),
        map_cons, sum_cons, Nat.toUInt32_eq, Nat.toUInt32_eq, Nat.toUInt32_eq,
        UInt32.ofNat_add, UInt32.add_assoc]
  exact hfold _ space fun x hx => h x.1 (fst_mem_of_mem_zipIdx hx)

/-! ## Writing -/

theorem grows_prepareDimInfo (l : DfxLaunch) (s : Streams UInt64) (t : GertTensor) :
    Grows s (l.prepareDimInfo s t.storageShape) 0 (l.written t) := by
  unfold prepareDimInfo written GertTensor.shapeWords
  split
  next =>
    dsimp only
    split
    next => exact grows_pushBack s [1, 1]
    next =>
      have := grows_pushBack s
        (t.storageShape.val.length.toUInt64 :: t.storageShape.val.map Int64.toUInt64)
      rwa [length_cons, length_map] at this
  next => exact Grows.refl s

theorem prepareParamSize_spec (l : DfxLaunch) (isInput : Bool) (s : Streams UInt64)
    (h : ts.Readable x.1 j) :
    ∃ s', l.prepareParamSize isInput ts (j, s) x = some (ts.nextSlot x.1 j, s') ∧
      Grows s s' 1 (l.wordsAt l.written isInput ts x j) := by
  obtain ⟨c, hc, hown⟩ := h
  obtain ⟨slot, hslot, hcontent⟩ := slot_of_content hc
  unfold prepareParamSize nextSlot wordsAt
  simp only [hslot, hc]
  cases c with
  | none =>
    rw [if_pos (isNull_of_content.mp hcontent)]
    exact ⟨_, rfl, grows_pushFront s 0⟩
  | some t =>
    obtain ⟨hnull, ht⟩ := rt2Tensor_of_content hcontent
    simp only [hnull, ht, Bool.false_eq_true, if_false]
    by_cases hp : x.1.cfgNum = .dynamic
    · obtain ⟨slots, hslots⟩ := Option.isSome_iff_exists.mp (hown nofun hp)
      rw [if_neg (not_not.mpr hp), hslots]
      simp only [hp, if_true, not_true_eq_false, ne_eq, false_and, if_false]
      exact ⟨_, rfl, grows_pushFront s _⟩
    · simp only [hp, if_false, not_false_eq_true, ne_eq, true_and, if_true]
      refine ⟨_, rfl, ?_⟩
      -- a tensor that shows its shape has it written first
      have hshape : Grows s (if l.showsShape isInput x.2 = true then
            l.prepareDimInfo s t.storageShape else s) 0
          (if l.showsShape isInput x.2 = true then l.written t else 0) := by
        split
        next => exact grows_prepareDimInfo l s t
        next => exact Grows.refl s
      have := hshape.trans (grows_pushFront _ (alignSize t.data.length.toUInt64 blockSize))
      rwa [Nat.zero_add, Nat.add_zero] at this

theorem prepareParamSize_unreadable (h : ¬ ts.Readable x.1 j) :
    l.prepareParamSize isInput ts (j, s) x = none := by
  unfold prepareParamSize
  dsimp only
  split
  next => rfl
  next slot hslot =>
    obtain ⟨hnull, hp, hown⟩ := Tensors.slot_unreadable h hslot
    rw [if_neg hnull, if_neg (not_not.mpr hp), hown]
    rfl

theorem walkSizes (l : DfxLaunch) (isInput : Bool) (ts : Tensors)
    (xs : List (ParamInstance × Nat)) (j : Nat) (s : Streams UInt64) :
    (List.Forall₂ ts.Readable (xs.map Prod.fst) (ts.slotsRead j (xs.map Prod.fst)) →
      ∃ last, xs.foldlM (l.prepareParamSize isInput ts) (j, s) = some last ∧
        Grows s last.2 xs.length (List.zipWith (l.wordsAt l.written isInput ts) xs
          (ts.slotsRead j (xs.map Prod.fst))).sum) ∧
    (¬ List.Forall₂ ts.Readable (xs.map Prod.fst) (ts.slotsRead j (xs.map Prod.fst)) →
      xs.foldlM (l.prepareParamSize isInput ts) (j, s) = none) := by
  have hwalk := walk_slots Prod.fst (l.wordsAt l.written isInput ts)
    (fun s s' words => Grows s s' words.length words.sum) (fun s => Grows.refl s)
    (fun hgrows hmore => by
      rw [length_cons, Nat.add_comm, sum_cons]
      exact hgrows.trans hmore)
    (fun x j s hread => prepareParamSize_spec l isInput s hread)
    (fun x j s hread => prepareParamSize_unreadable hread) xs j s
  rwa [length_zipWith, length_slotsRead, length_map, Nat.min_self] at hwalk

theorem prepareIoSize_some (l : DfxLaunch) (isInput : Bool) (s : Streams UInt64)
    (h : List.Forall₂ ts.Readable ts.instances (ts.slotsRead 0 ts.instances)) :
    ∃ s', l.prepareIoSize isInput ts s = some s' ∧
      Grows s s' ts.instances.length (l.readWords isInput ts) := by
  obtain ⟨hread, -⟩ := walkSizes l isInput ts ts.instances.zipIdx 0 s
  rw [zipIdx_map_fst] at hread
  obtain ⟨last, hlast, hgrows⟩ := hread h
  rw [length_zipIdx] at hgrows
  refine ⟨last.2, ?_, hgrows⟩
  unfold prepareIoSize
  rw [hlast]
  rfl

theorem prepareIoSize_none
    (h : ¬ List.Forall₂ ts.Readable ts.instances (ts.slotsRead 0 ts.instances)) :
    l.prepareIoSize isInput ts s = none := by
  obtain ⟨-, hstop⟩ := walkSizes l isInput ts ts.instances.zipIdx 0 s
  rw [zipIdx_map_fst] at hstop
  unfold prepareIoSize
  rw [hstop h]
  rfl

theorem grows_foldl_pushFront {β : Type} (f : β → UInt64) (xs : List β) (s : Streams UInt64) :
    Grows s (xs.foldl (fun s x => s.pushFront (f x)) s) xs.length 0 := by
  induction xs generalizing s with
  | nil => exact Grows.refl s
  | cons x xs ih =>
    have := (grows_pushFront s (f x)).trans (ih (s.pushFront (f x)))
    rwa [Nat.add_comm 1] at this

theorem grows_setWorkspaceSizes (l : DfxLaunch) (s : Streams UInt64) :
    Grows s (l.setWorkspaceSizes s) ((if l.outPutShapeSize ≠ 0 then 1 else 0) + l.workspaceNum)
      0 := by
  have hnum : l.workspaceNum = 1 + l.workspacesSizes.tail.length := by
    unfold workspaceNum
    cases l.workspacesSizes with
    | nil => rfl
    | cons w ws => exact Nat.add_comm _ 1
  have hshape : Grows s (if l.outPutShapeSize ≠ 0 then
      s.pushFront (alignSize l.outPutShapeSize blockSize) else s)
      (if l.outPutShapeSize ≠ 0 then 1 else 0) 0 := by
    split
    next => exact grows_pushFront s _
    next => exact Grows.refl s
  unfold setWorkspaceSizes
  rw [hnum]
  exact hshape.trans ((grows_pushFront _ _).trans (grows_foldl_pushFront _ _ _))

/-! ## Both together -/

variable {ins outs : Tensors}

theorem toNat_oomNum (l : DfxLaunch) (ins outs : Tensors) :
    (l.oomNum ins outs).toNat = (l.hcomHandle + l.sizeWords ins outs) % 2 ^ 32 := by
  have hone : ∀ n : Nat, n.toUInt32 + 1 = (n + 1).toUInt32 := fun n => by
    rw [Nat.toUInt32_eq, Nat.toUInt32_eq, UInt32.ofNat_add]
    rfl
  unfold oomNum sizeWords
  split
  next => rw [hone, Nat.toUInt32_eq, UInt32.toNat_ofNat']; congr 1; omega
  next => rw [Nat.toUInt32_eq, UInt32.toNat_ofNat']; congr 1; omega

theorem space_eq (hins : ins.HasSlots) (houts : outs.HasSlots) :
    ∃ space, l.space ins outs = some space ∧ space.toNat =
      (l.hcomHandle + (l.sizeWords ins outs + (l.ownWords true ins + l.ownWords false outs))) %
        2 ^ 32 := by
  unfold space
  rw [getIoShapeSizes_eq 0 hins, bind_eq_bind, bind_some, getIoShapeSizes_eq _ houts]
  refine ⟨_, rfl, ?_⟩
  rw [UInt32.zero_add, Nat.toUInt32_eq, Nat.toUInt32_eq, ← UInt32.ofNat_add, UInt32.toNat_add,
    toNat_oomNum, UInt32.toNat_ofNat', ← Nat.add_mod]
  congr 1
  omega

theorem setDfxInfo_some
    (hins : List.Forall₂ ins.Readable ins.instances (ins.slotsRead 0 ins.instances))
    (houts : List.Forall₂ outs.Readable outs.instances (outs.slotsRead 0 outs.instances)) :
    ∃ s, l.setDfxInfo ins outs = some s ∧
      Grows (start l.hcomHandle (l.oomNum ins outs).toNat) s (l.sizeWords ins outs)
        (l.readWords true ins + l.readWords false outs) := by
  obtain ⟨s₁, hs₁, hgrows₁⟩ := prepareIoSize_some l true
    (start l.hcomHandle (l.oomNum ins outs).toNat) hins
  obtain ⟨s₂, hs₂, hgrows₂⟩ := prepareIoSize_some l false s₁ houts
  refine ⟨l.setWorkspaceSizes s₂, ?_, ?_⟩
  · unfold setDfxInfo
    rw [hs₁, bind_eq_bind, bind_some, hs₂]
    rfl
  · have := (hgrows₁.trans hgrows₂).trans (grows_setWorkspaceSizes l s₂)
    rwa [Nat.add_zero] at this

theorem readable_of_setDfxInfo (h : l.setDfxInfo ins outs = some s) :
    List.Forall₂ ins.Readable ins.instances (ins.slotsRead 0 ins.instances) ∧
      List.Forall₂ outs.Readable outs.instances (outs.slotsRead 0 outs.instances) := by
  unfold setDfxInfo at h
  obtain ⟨s₁, hs₁, h⟩ := bind_eq_some_iff.mp h
  obtain ⟨s₂, hs₂, -⟩ := bind_eq_some_iff.mp h
  constructor
  · refine by_contra fun hno => ?_
    rw [prepareIoSize_none hno] at hs₁
    cases hs₁
  · refine by_contra fun hno => ?_
    rw [prepareIoSize_none hno] at hs₂
    cases hs₂

/-- The buffer is filled exactly just when the reserved and the written words balance. -/
theorem sizedExactly_iff (hins : ins.HasSlots) (houts : outs.HasSlots) :
    l.SizedExactly ins outs ↔ l.Balanced ins outs := by
  obtain ⟨space, hspace, hsize⟩ := space_eq (l := l) hins houts
  have hoom := toNat_oomNum l ins outs
  constructor
  · intro ⟨space', s, h, hexact⟩
    unfold prepareDfxInfo at h
    rw [hspace, bind_eq_bind, bind_some] at h
    obtain ⟨s', hs', heq⟩ := bind_eq_some_iff.mp h
    cases heq
    obtain ⟨hreadIn, hreadOut⟩ := readable_of_setDfxInfo hs'
    obtain ⟨s'', hs'', hgrows⟩ := setDfxInfo_some (l := l) hreadIn hreadOut
    obtain rfl := some.inj (hs'.symm.trans hs'')
    refine ⟨hreadIn, hreadOut, ?_⟩
    rw [← hsize, hexact.1, hgrows.length_writes]
  · intro h
    obtain ⟨s, hs, hgrows⟩ := setDfxInfo_some (l := l) h.readInputs h.readOutputs
    refine ⟨space, s, ?_, ?_⟩
    · unfold prepareDfxInfo
      rw [hspace, bind_eq_bind, bind_some, hs]
      rfl
    · have hwords := h.words
      rw [← hsize] at hwords
      rw [Nat.mod_eq_of_lt (by omega)] at hoom
      rw [hoom] at hgrows
      exact hgrows.exact_iff.mpr hwords

/-! ## In step -/

theorem wordsAt_dynamic {words : GertTensor → Nat} {slot : Nat}
    (h : x.1.cfgNum = .dynamic) : l.wordsAt words isInput ts x slot = 0 := by
  unfold wordsAt
  split
  next => exact if_neg fun hx => hx.1 h
  next => rfl

theorem written_eq_reserved {t : GertTensor} (h : 0 ≤ l.getShapeSize t.storageShape) :
    l.written t = l.reserved t := by
  unfold written reserved
  by_cases hzero : l.getShapeSize t.storageShape = 0
  · rw [if_neg (by omega), if_neg (not_not.mpr hzero)]
  · rw [if_pos (by omega), if_pos hzero]

/-- The walk is at the slot of this parameter, and goes on to that of the next. -/
structure Steady (l : DfxLaunch) (isInput : Bool) (ts : Tensors) (x : Given) (j : Nat) : Prop where
  readable : ts.Readable x.1 j
  next : ts.nextSlot x.1 j = j + x.2.slots.length
  words : ∀ i, l.wordsAt l.written isInput ts (x.1, i) j =
    l.wordsAt l.reserved isInput ts (x.1, i) x.1.startIndex

section

variable (hfilled : Filled opt ts params) (hkeeps : KeepsStep params)
  (hcount : l.Countable (params.map Prod.snd))
include hfilled hkeeps hcount

/-- If the lists keep in step with the slots, each parameter reserves what it writes. -/
theorem steady_of_keepsStep {front : List Given} {x : Given}
    (hsplit : params = front ++ x :: rest) :
    l.Steady isInput ts x (slotsOf front).length := by
  have hknown := hfilled.known front x rest hsplit
  by_cases hp : x.1.cfgNum = .dynamic
  · rcases hkeeps front x rest hsplit hp with ⟨e, es, hslots, hhead⟩ | ⟨hempty, hnum, t, hnext⟩
    · have hfirst := hfilled.first hsplit hslots
      have hne : x.2.slots ≠ [] := by
        rw [hslots]
        exact cons_ne_nil e es
      obtain ⟨slots, hown, -⟩ := hfilled.ownSlots hsplit hne hp
      refine ⟨⟨_, hfirst, fun _ _ => by rw [hown]; rfl⟩, ?_, fun i => ?_⟩
      · unfold nextSlot
        rw [hfirst]
        cases e with
        | none => rw [hslots, hhead rfl]; rfl
        | some t => exact (if_pos hp).trans (by rw [hknown.counts hp hne])
      · rw [wordsAt_dynamic hp, wordsAt_dynamic hp]
    · -- A list without elements is taken for one, in front of a tensor.
      obtain ⟨m, hm, -⟩ := hfilled.behind hsplit
      have hcontent : ts.contents[(slotsOf front).length]? = some (some (t.saved opt)) := by
        rw [← head?_drop, hm, flat_eq, head?_append, head?_map]
        unfold slotsOf at hnext ⊢
        rw [flatMap_cons, hempty, nil_append, hnext]
        rfl
      have hown : ts.ownSlots x.1 = some [] := by
        unfold Tensors.ownSlots
        rw [if_pos (Or.inl hnum), hnum, take_zero]
      refine ⟨⟨_, hcontent, fun _ _ => by rw [hown]; rfl⟩, ?_, fun i => ?_⟩
      · unfold nextSlot
        rw [hcontent, hempty]
        exact (if_pos hp).trans (by rw [hnum]; rfl)
      · rw [wordsAt_dynamic hp, wordsAt_dynamic hp]
  · obtain ⟨p, arg⟩ := x
    cases arg with
    | tensorList list => exact absurd (ParamType.eq_dynamic_of_admits hknown.admits) hp
    | tensor tensor =>
      have hfirst := hfilled.first hsplit (rfl : (Arg.tensor tensor).slots = [tensor])
      have hstart : p.startIndex = (slotsOf front).length := by
        rw [← length_flat opt]
        exact hknown.starts (cons_ne_nil _ _)
      refine ⟨⟨_, hfirst, fun _ hdyn => absurd hdyn hp⟩, ?_, fun i => ?_⟩
      · unfold nextSlot
        rw [hfirst]
        cases tensor with
        | none => rfl
        | some t => exact if_neg hp
      · rw [hstart]
        unfold wordsAt
        rw [hfirst]
        cases tensor with
        | none => rfl
        | some t =>
          have hmem : Arg.tensor (some t) ∈ params.map Prod.snd := by
            rw [hsplit, map_append, map_cons]
            exact mem_append_right _ mem_cons_self
          have heq : l.written (t.saved opt) = l.reserved (t.saved opt) :=
            written_eq_reserved (hcount t hmem)
          show (if _ then l.written (t.saved opt) else 0) = _
          rw [heq]
          rfl

theorem walk_steady :
    ∀ (rest front : List Given) (k : Nat), params = front ++ rest →
      List.Forall₂ ts.Readable (rest.map Prod.fst)
        (ts.slotsRead (slotsOf front).length (rest.map Prod.fst)) ∧
      List.zipWith (l.wordsAt l.written isInput ts) ((rest.map Prod.fst).zipIdx k)
          (ts.slotsRead (slotsOf front).length (rest.map Prod.fst)) =
        ((rest.map Prod.fst).zipIdx k).map fun x =>
          l.wordsAt l.reserved isInput ts x x.1.startIndex := by
  intro rest
  induction rest with
  | nil =>
    intro front k _
    exact ⟨.nil, rfl⟩
  | cons x rest ih =>
    intro front k hsplit
    have hx : l.Steady isInput ts x _ := steady_of_keepsStep hfilled hkeeps hcount hsplit
    obtain ⟨hread, hwords⟩ := ih (front ++ [x]) (k + 1) (by rw [hsplit, append_assoc]; rfl)
    rw [length_slotsOf_snoc, ← hx.next] at hread hwords
    rw [map_cons, Tensors.slotsRead, zipIdx_cons, zipWith_cons_cons, map_cons, hwords, hx.words k]
    exact ⟨.cons hx.readable hread, rfl⟩

theorem readWords_eq_ownWords (isInput : Bool) :
    List.Forall₂ ts.Readable ts.instances (ts.slotsRead 0 ts.instances) ∧
      l.readWords isInput ts = l.ownWords isInput ts := by
  obtain ⟨hread, hwords⟩ := walk_steady (l := l) hfilled hkeeps hcount params [] 0 rfl
  rw [← hfilled.instances] at hread hwords
  exact ⟨hread, congrArg List.sum hwords⟩

end

theorem hasSlots_of_filled (hfilled : Filled opt ts params) : ts.HasSlots := by
  intro p hp hne
  rw [hfilled.instances] at hp
  obtain ⟨x, hx, rfl⟩ := mem_map.mp hp
  obtain ⟨front, back, hsplit⟩ := append_of_mem hx
  have hknown := hfilled.known front x back hsplit
  obtain ⟨p, arg⟩ := x
  cases arg with
  | tensorList list => exact absurd (ParamType.eq_dynamic_of_admits hknown.admits) hne
  | tensor tensor =>
    have hstart : p.startIndex = (slotsOf front).length := by
      rw [← length_flat opt]
      exact hknown.starts (cons_ne_nil _ _)
    exact ⟨_, hstart ▸ hfilled.first hsplit (rfl : (Arg.tensor tensor).slots = [tensor])⟩

end DfxLaunch

open Tensors DfxLaunch

/-- The info is sized exactly if and only if the shapes that are read take the words that are
reserved; they do if the walk stays in step. -/
theorem dfx_info_sized {inputDesc outputDesc : List ParamType} {inputs outputs : Tensors}
    (hinputs : Reached inputDesc inputs) (houtputs : Reached outputDesc outputs)
    (opt : FormatCheckOption) {inputArgs outputArgs : List Arg}
    (hinputArgs : List.Forall₂ ParamType.Admits inputDesc inputArgs)
    (houtputArgs : List.Forall₂ ParamType.Admits outputDesc outputArgs) (l : DfxLaunch) :
    ∃ ins outs, inputs.clearExtTensors.addArgs opt inputArgs = some ins ∧
      outputs.clearExtTensors.addArgs opt outputArgs = some outs ∧
      (l.SizedExactly ins outs ↔ l.Balanced ins outs) ∧
      (KeepsStep (givenTo ins inputArgs) → KeepsStep (givenTo outs outputArgs) →
        l.Countable inputArgs → l.Countable outputArgs →
        l.hcomHandle + (l.sizeWords ins outs + (l.ownWords true ins + l.ownWords false outs)) <
          2 ^ 32 →
        l.Balanced ins outs) := by
  obtain ⟨ins, inParams, hins, rfl, -, hinFilled⟩ := hinputs.shaped.addArgs opt hinputArgs
  obtain ⟨outs, outParams, houts, rfl, -, houtFilled⟩ := houtputs.shaped.addArgs opt houtputArgs
  refine ⟨ins, outs, hins, houts,
    sizedExactly_iff (hasSlots_of_filled hinFilled) (hasSlots_of_filled houtFilled), ?_⟩
  rw [hinFilled.givenTo rfl, houtFilled.givenTo rfl]
  intro hinKeeps houtKeeps hinCount houtCount hfits
  obtain ⟨hinRead, hinWords⟩ := readWords_eq_ownWords hinFilled hinKeeps hinCount true
  obtain ⟨houtRead, houtWords⟩ := readWords_eq_ownWords houtFilled houtKeeps houtCount false
  exact ⟨hinRead, houtRead, by rw [hinWords, houtWords, Nat.mod_eq_of_lt hfits]⟩

/-- The product of the dimensions, for shapes whose elements can be counted. -/
def shapeProduct (shape : Shape) : Int := (shape.val.map Int64.toInt).prod

/-- A launch without communication handles, output shapes and workspaces. -/
def plainLaunch : DfxLaunch := ⟨0, 0, [], [], false, false, false, 0, shapeProduct⟩

/-- A list and a tensor as inputs, a tensor as output. -/
theorem dfx_info_sized_list :
    ∃ ins outs, (initIoCaches [.dynamic, .required]).clearExtTensors.addArgs .default
        [.tensorList (some [deviceTensor]), .tensor deviceTensor] = some ins ∧
      (initIoCaches [.required]).clearExtTensors.addArgs .default [.tensor deviceTensor] =
        some outs ∧
      plainLaunch.SizedExactly ins outs := by
  obtain ⟨ins, outs, hins, houts, hiff, -⟩ := dfx_info_sized
    (.init : Reached [.dynamic, .required] _) (.init : Reached [.required] _) .default
    admits_device (forall₂_cons.mp admits_device).2 plainLaunch
  have hin : List.Forall₂ ins.Readable ins.instances (ins.slotsRead 0 ins.instances) ∧
      plainLaunch.ownWords true ins = plainLaunch.readWords true ins ∧
      plainLaunch.readWords true ins = 2 ∧ ins.instances.length = 2 := by
    obtain rfl := some.inj (hins.symm.trans rfl)
    exact ⟨.cons ⟨_, rfl, fun _ _ => rfl⟩ (.cons ⟨_, rfl, nofun⟩ .nil), by decide⟩
  have hout : List.Forall₂ outs.Readable outs.instances (outs.slotsRead 0 outs.instances) ∧
      plainLaunch.ownWords false outs = plainLaunch.readWords false outs ∧
      plainLaunch.readWords false outs = 2 ∧ outs.instances.length = 1 := by
    obtain rfl := some.inj (houts.symm.trans rfl)
    exact ⟨.cons ⟨_, rfl, nofun⟩ .nil, by decide⟩
  refine ⟨ins, outs, hins, houts, hiff.mpr ⟨hin.1, hout.1, ?_⟩⟩
  unfold sizeWords
  rw [hin.2.1, hin.2.2.1, hin.2.2.2, hout.2.1, hout.2.2.1, hout.2.2.2]
  rfl

/-- A tensor with these dimensions. -/
def tensorOf (dims : Shape) : AclTensor := { deviceTensor with viewShape := dims }

/-- A list of a null and a tensor with three dimensions, then a tensor with one: the words of
the former are written where those of the latter were counted. -/
theorem dfx_info_slip :
    Reached [.dynamic, .required] (initIoCaches [.dynamic, .required]) ∧
    Reached [] (initIoCaches []) ∧
    List.Forall₂ ParamType.Admits [.dynamic, .required]
      [.tensorList (some [none, some (tensorOf ⟨[1, 1, 1], by decide⟩)]),
        .tensor (tensorOf ⟨[1], by decide⟩)] ∧
    ∃ ins, (initIoCaches [.dynamic, .required]).clearExtTensors.addArgs .default
        [.tensorList (some [none, some (tensorOf ⟨[1, 1, 1], by decide⟩)]),
          .tensor (tensorOf ⟨[1], by decide⟩)] = some ins ∧
      ¬ plainLaunch.SizedExactly ins (initIoCaches []) := by
  have hadmits : List.Forall₂ ParamType.Admits [.dynamic, .required]
      [.tensorList (some [none, some (tensorOf ⟨[1, 1, 1], by decide⟩)]),
        .tensor (tensorOf ⟨[1], by decide⟩)] :=
    .cons (show 2 ≤ dynamicParamDefNum by decide) (.cons trivial .nil)
  obtain ⟨ins, params, hins, hargs, -, hfilled⟩ :=
    (Reached.init : Reached [.dynamic, .required] _).shaped.addArgs .default hadmits
  have hnone : (initIoCaches []).HasSlots := fun p hp => absurd hp not_mem_nil
  refine ⟨.init, .init, hadmits, ins, hins, fun h => ?_⟩
  have hbalanced := (sizedExactly_iff (hasSlots_of_filled hfilled) hnone).mp h
  obtain rfl := some.inj (hins.symm.trans rfl)
  exact absurd hbalanced.words (by decide)

end OpBase.Indv
