import OpBase.Launch.TilingOom
import OpBase.Lib.TwoStreams

/-!
# The error-dump info of a launch

`op_kernel.h`: for the case that a kernel fails, the size of each of its arguments and the
shapes of its tensors are written to a buffer of the size `LaunchArgInfo` has added up. The
sizes lie in front, a word for each entry; the shapes are written behind them, from an offset
of its own. `AppendAICErrorDFXInfoToDump` compares the end with the size when all is written.

A null among the entries has a size word, or the writing stops there; where it is a placeholder
the word was counted, where it is a memset's tensor it was not.

> `error_dump_fits`: all is written and fits the size exactly if and only if every memset has a
> tensor. With placeholders, the end is beyond the size by a word for each memset without.
-/

namespace OpBase.LaunchArg

open List OpBase.Lib

/-! ## Writing -/

/-- `AppendTensorDfxInfo` for a tensor. The streams are the size words and the shape words. -/
def appendTensorDfxInfo (bin : OpKernelBin) (s : Streams Nat) (isOutShapeTensor : Bool) :
    Option Tensor → AclnnStatus × Streams Nat
  | none =>
    if bin.genPlaceholder then (.success, s.pushFront 0) else (.errInnerNullptr, s)
  | some t =>
    let s := s.pushFront (alignSize t.tensorSize 32)
    if isOutShapeTensor then (.success, s)
    else if t.dimNum = 0 then (.success, s.pushBack [1, 1])
    else (.success, s.pushBack (t.dimNum :: t.storageShape.map toSizeT))

/-- What is written for an entry. -/
def appendArgDfxInfo (bin : OpKernelBin) (s : Streams Nat) : ArgAddr → AclnnStatus × Streams Nat
  | .deviceArg tensor _ isOutShapeTensor => appendTensorDfxInfo bin s isOutShapeTensor tensor
  | .hostArg _ _ hostTensor => appendTensorDfxInfo bin s false (some hostTensor)
  | .devicePtrArg _ ptrListLen => (.success, s.pushFront ptrListLen)

/-- The loop of `AppendAICErrorDFXInfoToDump`. -/
def appendAllDfxInfo (bin : OpKernelBin) : List ArgAddr → Streams Nat → AclnnStatus × Streams Nat
  | [], s => (.success, s)
  | arg :: allArg, s =>
    match appendArgDfxInfo bin s arg with
    | (.success, s) => appendAllDfxInfo bin allArg s
    | (ret, s) => (ret, s)

/-- `AppendAICErrorDFXInfoToDump`: offsets are in words. -/
def appendAICErrorDFXInfoToDump (bin : OpKernelBin) (allArg : List ArgAddr) (dumpSize : Nat) :
    AclnnStatus × Streams Nat :=
  match appendAllDfxInfo bin allArg (Streams.start 0 allArg.length) with
  | (.success, s) => if s.back * 8 = dumpSize then (.success, s) else (.errInner, s)
  | (ret, s) => (ret, s)

/-! ## What is written -/

/-- The words for the shape of an entry. -/
def ArgAddr.shapeWords : ArgAddr → Nat
  | deviceArg none _ _ => 0
  | deviceArg (some t) _ isOutShapeTensor =>
    if isOutShapeTensor then 0 else if t.dimNum = 0 then 2 else t.dimNum + 1
  | hostArg _ _ t => if t.dimNum = 0 then 2 else t.dimNum + 1
  | devicePtrArg _ _ => 0

/-- Nulls are written as placeholders or not at all. -/
def ArgAddr.Writable (bin : OpKernelBin) : ArgAddr → Prop
  | deviceArg none _ _ => bin.genPlaceholder = true
  | _ => True

variable {bin : OpKernelBin} {s : Streams Nat} {args : OpArgContext} {allArg : List ArgAddr}

open Streams

theorem appendTensorDfxInfo_some (bin : OpKernelBin) (s : Streams Nat) (isOutShapeTensor : Bool)
    (t : Tensor) :
    ∃ s', appendTensorDfxInfo bin s isOutShapeTensor (some t) = (.success, s') ∧
      Grows s s' 1 (if isOutShapeTensor then 0 else if t.dimNum = 0 then 2 else t.dimNum + 1) := by
  have hsize := grows_pushFront s (alignSize t.tensorSize 32)
  unfold appendTensorDfxInfo
  dsimp only
  split
  next => exact ⟨_, rfl, hsize⟩
  next =>
    split
    next => exact ⟨_, rfl, hsize.trans (grows_pushBack _ [1, 1])⟩
    next =>
      refine ⟨_, rfl, ?_⟩
      have hshape := grows_pushBack (s.pushFront (alignSize t.tensorSize 32))
        (t.dimNum :: t.storageShape.map toSizeT)
      rw [length_cons, length_map] at hshape
      have hall := hsize.trans hshape
      rwa [Nat.zero_add] at hall

theorem appendArgDfxInfo_of_writable {arg : ArgAddr} (h : arg.Writable bin) (s : Streams Nat) :
    ∃ s', appendArgDfxInfo bin s arg = (.success, s') ∧ Grows s s' 1 arg.shapeWords := by
  cases arg with
  | deviceArg tensor addr isOutShapeTensor =>
    cases tensor with
    | none =>
      refine ⟨s.pushFront 0, ?_, grows_pushFront s 0⟩
      unfold appendArgDfxInfo appendTensorDfxInfo
      exact if_pos h
    | some t => exact appendTensorDfxInfo_some bin s isOutShapeTensor t
  | hostArg addr len t => exact appendTensorDfxInfo_some bin s false t
  | devicePtrArg tensors len => exact ⟨s.pushFront len, rfl, grows_pushFront s len⟩

theorem appendArgDfxInfo_of_not_writable {arg : ArgAddr} (h : ¬ arg.Writable bin)
    (s : Streams Nat) : appendArgDfxInfo bin s arg = (.errInnerNullptr, s) := by
  cases arg with
  | deviceArg tensor addr isOutShapeTensor =>
    cases tensor with
    | none =>
      unfold appendArgDfxInfo appendTensorDfxInfo
      exact if_neg h
    | some t => exact absurd trivial h
  | hostArg _ _ _ | devicePtrArg _ _ => exact absurd trivial h

theorem appendAllDfxInfo_of_writable (h : ∀ arg ∈ allArg, arg.Writable bin) (s : Streams Nat) :
    ∃ s', appendAllDfxInfo bin allArg s = (.success, s') ∧
      Grows s s' allArg.length (allArg.map ArgAddr.shapeWords).sum := by
  induction allArg generalizing s with
  | nil => exact ⟨s, rfl, .refl s⟩
  | cons arg allArg ih =>
    obtain ⟨s₁, harg, hgrows⟩ := appendArgDfxInfo_of_writable (h arg mem_cons_self) s
    obtain ⟨s₂, hrest, hgrows'⟩ := ih (fun x hx => h x (mem_cons_of_mem arg hx)) s₁
    refine ⟨s₂, ?_, ?_⟩
    · unfold appendAllDfxInfo
      rw [harg]
      exact hrest
    · rw [length_cons, map_cons, sum_cons, Nat.add_comm]
      exact hgrows.trans hgrows'

theorem appendAllDfxInfo_of_not_writable (h : ∃ arg ∈ allArg, ¬ arg.Writable bin)
    (s : Streams Nat) :
    (appendAllDfxInfo bin allArg s).1 = .errInnerNullptr := by
  induction allArg generalizing s with
  | nil =>
    obtain ⟨arg, harg, -⟩ := h
    exact absurd harg not_mem_nil
  | cons arg allArg ih =>
    unfold appendAllDfxInfo
    by_cases hw : arg.Writable bin
    · obtain ⟨s₁, harg, -⟩ := appendArgDfxInfo_of_writable hw s
      rw [harg]
      refine ih ?_ s₁
      obtain ⟨x, hx, hxw⟩ := h
      rcases mem_cons.mp hx with rfl | hx
      · exact absurd hw hxw
      · exact ⟨x, hx, hxw⟩
    · rw [appendArgDfxInfo_of_not_writable hw s]

/-! ## Written and announced -/

/-- A memset without a tensor. -/
def Item.isNullMemset : Item → Bool
  | memset _ none => true
  | _ => false

theorem dumpSize_entry (bin : OpKernelBin) (x : Item) :
    x.dumpSize + 8 * x.isNullMemset.toNat = 8 * (1 + (x.entry bin).shapeWords) := by
  have hsome : ∀ t : Tensor, calAdumpDFXInfoSize (some t) =
      8 * (1 + if t.dimNum = 0 then 2 else t.dimNum + 1) := by
    intro t
    unfold calAdumpDFXInfoSize
    dsimp only
    split <;> omega
  cases x with
  | input t =>
    unfold Item.dumpSize Item.entry
    dsimp only
    split <;> exact hsome t
  | output t => exact hsome t
  | memset addr tensor =>
    cases tensor with
    | none => rfl
    | some t => exact hsome t
  | placeholder | list _ | outShape _ => rfl

theorem sum_dumpSize (bin : OpKernelBin) (xs : List Item) :
    (xs.map Item.dumpSize).sum + 8 * xs.countP Item.isNullMemset =
      8 * (xs.length + ((xs.map (Item.entry bin)).map ArgAddr.shapeWords).sum) := by
  induction xs with
  | nil => rfl
  | cons x xs ih =>
    have hx := dumpSize_entry bin x
    rw [map_cons, sum_cons, map_cons, map_cons, sum_cons, length_cons, countP_cons]
    cases hnull : x.isNullMemset with
    | true =>
      rw [hnull, Bool.toNat_true] at hx
      rw [if_pos rfl]
      omega
    | false =>
      rw [hnull, Bool.toNat_false] at hx
      rw [if_neg Bool.false_ne_true]
      omega

theorem memsetsGiven_iff_countP (bin : OpKernelBin) :
    args.MemsetsGiven ↔ (items bin args).countP Item.isNullMemset = 0 := by
  rw [OpArgContext.memsetsGiven_iff bin, countP_eq_zero]
  constructor
  · intro h x hx hnull
    cases x with
    | memset addr tensor =>
      cases tensor with
      | none => exact h addr hx
      | some t => cases hnull
    | placeholder | input _ | output _ | list _ | outShape _ => cases hnull
  · intro h addr hmem
    exact h _ hmem rfl

theorem writable_entry (hgiven : args.MemsetsGiven ∨ bin.genPlaceholder = true) :
    ∀ arg ∈ (items bin args).map (Item.entry bin), arg.Writable bin := by
  intro arg harg
  obtain ⟨x, hx, rfl⟩ := mem_map.mp harg
  cases x with
  | placeholder => exact OpArgContext.genPlaceholder_of_mem hx
  | memset addr tensor =>
    cases tensor with
    | none =>
      rcases hgiven with hgiven | hplace
      · exact absurd hx ((OpArgContext.memsetsGiven_iff bin).mp hgiven addr)
      · exact hplace
    | some t => exact trivial
  | input t =>
    unfold Item.entry
    dsimp only
    split <;> exact trivial
  | output _ | list _ | outShape _ => exact trivial

/-! ## Whether the dump fits -/

/-- What is written of the context's launch. -/
def dumped (bin : OpKernelBin) (args : OpArgContext) : AclnnStatus × Streams Nat :=
  appendAICErrorDFXInfoToDump bin (launchArgInfo bin args).allArg
    (launchArgInfo bin args).dfxInfoDumpSize

/-- Every entry has its size word, the shapes end where the announced size does, and nothing
is written behind it. -/
structure DumpFits (bin : OpKernelBin) (args : OpArgContext) : Prop where
  success : (dumped bin args).1 = .success
  sizeWords : (dumped bin args).2.front = (launchArgInfo bin args).allArg.length
  size : (launchArgInfo bin args).dfxInfoDumpSize = (dumped bin args).2.back * 8
  inside : ∀ i ∈ (dumped bin args).2.cells, i * 8 + 8 ≤ (launchArgInfo bin args).dfxInfoDumpSize

theorem dumped_grows (args : OpArgContext)
    (hgiven : args.MemsetsGiven ∨ bin.genPlaceholder = true) :
    Grows (start 0 (0 + (launchArgInfo bin args).allArg.length)) (dumped bin args).2
      (launchArgInfo bin args).allArg.length
      ((launchArgInfo bin args).allArg.map ArgAddr.shapeWords).sum ∧
    (dumped bin args).2.back * 8 = (launchArgInfo bin args).dfxInfoDumpSize +
      8 * (items bin args).countP Item.isNullMemset ∧
    ((dumped bin args).1 = .success ↔
      (dumped bin args).2.back * 8 = (launchArgInfo bin args).dfxInfoDumpSize) := by
  obtain ⟨hallArg, hdump, -⟩ := described_launchArgInfo bin args
  have hwritable := writable_entry hgiven
  rw [← hallArg] at hwritable
  obtain ⟨s, hs, hgrows⟩ := appendAllDfxInfo_of_writable hwritable
    (start 0 (launchArgInfo bin args).allArg.length)
  have hstream : (dumped bin args).2 = s := by
    unfold dumped appendAICErrorDFXInfoToDump
    rw [hs]
    dsimp only
    split <;> rfl
  have hsize : s.back * 8 = (launchArgInfo bin args).dfxInfoDumpSize +
      8 * (items bin args).countP Item.isNullMemset := by
    rw [hgrows.back, hdump, sum_dumpSize bin, ← hallArg, ← length_map (Item.entry bin),
      ← hallArg, Nat.mul_comm]
    rfl
  rw [hstream, Nat.zero_add]
  refine ⟨hgrows, hsize, ?_⟩
  unfold dumped appendAICErrorDFXInfoToDump
  rw [hs]
  dsimp only
  split
  next h => exact iff_of_true rfl h
  next h => exact iff_of_false nofun h

theorem dumped_fails (hplace : ¬ bin.genPlaceholder = true) (hgiven : ¬ args.MemsetsGiven) :
    (dumped bin args).1 = .errInnerNullptr := by
  rw [OpArgContext.memsetsGiven_iff bin] at hgiven
  obtain ⟨addr, hmem⟩ := not_forall_not.mp hgiven
  have hnull : ∃ arg ∈ (launchArgInfo bin args).allArg, ¬ arg.Writable bin := by
    rw [(described_launchArgInfo bin args).1]
    exact ⟨_, mem_map_of_mem hmem, hplace⟩
  have hfails := appendAllDfxInfo_of_not_writable hnull
    (start 0 (launchArgInfo bin args).allArg.length)
  unfold dumped appendAICErrorDFXInfoToDump
  split
  next s hs =>
    rw [hs] at hfails
    cases hfails
  next ret s _ hs =>
    rw [hs] at hfails
    exact hfails

/-- The dump fits exactly if every memset has a tensor; otherwise the writing stops or goes
beyond the size. -/
theorem error_dump_fits (bin : OpKernelBin) (args : OpArgContext) :
    (DumpFits bin args ↔ args.MemsetsGiven) ∧
    (bin.genPlaceholder = true → (dumped bin args).2.back * 8 =
      (launchArgInfo bin args).dfxInfoDumpSize +
        8 * (items bin args).countP Item.isNullMemset) := by
  refine ⟨⟨fun h => ?_, fun h => ?_⟩, fun h => (dumped_grows args (Or.inr h)).2.1⟩
  · by_cases hplace : bin.genPlaceholder = true
    · have hsize := (dumped_grows args (Or.inr hplace)).2.1
      rw [← h.size] at hsize
      exact (memsetsGiven_iff_countP bin).mpr (by omega)
    · by_contra hgiven
      have hsuccess := h.success
      rw [dumped_fails hplace hgiven] at hsuccess
      cases hsuccess
  · obtain ⟨hgrows, hsize, hsuccess⟩ := dumped_grows args (Or.inl h)
    rw [(memsetsGiven_iff_countP bin).mp h, Nat.mul_zero, Nat.add_zero] at hsize
    refine ⟨hsuccess.mpr hsize, ?_, hsize.symm, fun i hi => ?_⟩
    · rw [hgrows.front]
      exact Nat.zero_add _
    · have hlt := (hgrows.mem_cells.mp hi).2
      have hback : (dumped bin args).2.back = 0 + (launchArgInfo bin args).allArg.length +
        ((launchArgInfo bin args).allArg.map ArgAddr.shapeWords).sum := hgrows.back
      omega

/-- With placeholders, a null memset has a word that was not counted. -/
theorem error_dump_overrun :
    ¬ DumpFits tableBin nullMemsetArgs ∧
    (launchArgInfo tableBin nullMemsetArgs).dfxInfoDumpSize = 0 ∧
    (dumped tableBin nullMemsetArgs).2.writes = [(0, 0)] :=
  ⟨fun h => absurd h.success (by decide), rfl, rfl⟩

end OpBase.LaunchArg
