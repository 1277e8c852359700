import OpBase.Launch.ArgInfo
import OpBase.Lib.Checked

/-!
# Sizes for the out-of-memory check

`op_kernel.h`: a kernel that checks its accesses finds the byte size of each of its arguments
behind the tiling data, a word for each in the order of the arguments. `AppendTilingOOMInfo`
goes over the groups of the context by itself and has rules of its own for nulls, lists and
placeholders. A memset without a tensor has an entry and no word; the size of a host tensor is
computed in two ways, which differ for types that are counted in bits.

> `tiling_oom_lines_up`: the words are the sizes of the entries, one for each, if and only if
> every memset has a tensor and the two sizes of every host input round up to the same.
-/

namespace OpBase.LaunchArg

open List OpBase.Lib.Checked

/-! ## Appending words -/

/-- What is read of an `aclnnStatus`. -/
inductive AclnnStatus where
  | success
  | errInner
  | errInnerNullptr
deriving DecidableEq

/-- `TilingData`; `writes` are the words written, with where they are. -/
structure TilingData where
  capacity : Nat
  dataSize : Nat
  writes : List (Nat × Nat)
deriving DecidableEq

/-- `CalcShapeBytes` of a tensor, as a `size_t`. -/
def Tensor.shapeBytes (t : Tensor) : Nat := toSizeT (calcShapeBytes t.size t.dataType false)

namespace TilingData

/-- A word, if there is room. -/
def appendWord (td : TilingData) (word : Nat) : Except AclnnStatus TilingData :=
  if td.capacity ≤ td.dataSize ∨ td.capacity - td.dataSize < 8 then .error .errInner
  else .ok { td with
    dataSize := td.dataSize + 8
    writes := td.writes ++ [(td.dataSize, word)] }

/-- `AppendTensorShapeInfo` for a tensor. -/
def appendTensorShape (genPlaceholder : Bool) (td : TilingData) :
    Option Tensor → Except AclnnStatus TilingData
  | none => if genPlaceholder then td.appendWord 0 else .ok td
  | some t => td.appendWord (alignSize t.shapeBytes 32)

/-- `AppendTensorShapeInfo` for a list. -/
def appendListShape (genPlaceholder hasDevPtrArg : Bool) (td : TilingData) :
    Option (List (Option Tensor)) → Except AclnnStatus TilingData
  | none => .ok td
  | some tensors =>
    if hasDevPtrArg then td.appendWord (ptrListLen tensors)
    else tensors.foldlM (appendTensorShape genPlaceholder) td

/-- `AppendTensorShapeInfo` for a memset. -/
def appendMemsetShape (td : TilingData) (arg : List (Nat × Option Tensor)) :
    Except AclnnStatus TilingData :=
  arg.foldlM (fun td elem => td.appendTensorShape false elem.2) td

end TilingData

/-- `OpArgDef`, as far as the groups are told apart. -/
inductive OpArgDef where
  | opInputArg
  | opOutputArg
  | opWorkspaceArg
deriving DecidableEq

open TilingData in
/-- `AppendTensorShapeInfo`. -/
def appendTensorShapeInfo (bin : OpKernelBin) (opArgDef : OpArgDef) (td : TilingData) :
    OpArg → Except AclnnStatus TilingData
  | .aclTensor tensor =>
    td.appendTensorShape (if opArgDef = .opInputArg then bin.genPlaceholder else false) tensor
  | .aclTensorList tensors =>
    td.appendListShape (if opArgDef = .opInputArg then bin.genPlaceholder else false)
      (if opArgDef = .opInputArg ∨ opArgDef = .opOutputArg then bin.hasDevPtrArg else false)
      tensors
  | .memsetWorkspace tensors => td.appendMemsetShape tensors
  | .other => .ok td

/-- The tensor for output shapes, which is no placeholder. -/
def appendOutShape (td : TilingData) : Option Tensor → Except AclnnStatus TilingData
  | none => .ok td
  | some t => td.appendTensorShape false (some t)

/-- Where the words begin: behind the data of the tiling or the size the kernel was built for,
at a multiple of eight. -/
def OpKernelBin.oomStart (bin : OpKernelBin) (td : TilingData) : Nat :=
  let dataSize :=
    if 0 < bin.oriOpParaSize ∧ td.dataSize < bin.oriOpParaSize then bin.oriOpParaSize
    else td.dataSize
  alignSize dataSize 8

/-- `AppendTilingOOMInfo`. -/
def appendTilingOOMInfo (bin : OpKernelBin) (td : TilingData) (args : OpArgContext) :
    Except AclnnStatus TilingData :=
  let td := { td with dataSize := bin.oomStart td }
  if td.capacity < td.dataSize then .error .errInner
  else do
    let td ← args.inputs.foldlM (appendTensorShapeInfo bin .opInputArg) td
    let td ← args.outputs.foldlM (appendTensorShapeInfo bin .opOutputArg) td
    let td ← appendOutShape td args.outShape
    args.workspace.foldlM (appendTensorShapeInfo bin .opWorkspaceArg) td

/-! ## What is appended -/

/-- The word of an item. -/
def Item.word : Item → Option Nat
  | placeholder => some 0
  | input t | output t | outShape t => some (alignSize t.shapeBytes 32)
  | list tensors => some (ptrListLen tensors)
  | memset _ tensor => tensor.map fun t => alignSize t.shapeBytes 32

/-- Words one behind the other from an offset on. -/
def placed : Nat → List Nat → List (Nat × Nat)
  | _, [] => []
  | off, word :: words => (off, word) :: placed (off + 8) words

variable {bin : OpKernelBin} {td td' td'' : TilingData} {xs ys : List Item}
  {ofElem : Option Tensor → List Item} {arg : OpArg}

theorem placed_append (off : Nat) (us vs : List Nat) :
    placed off (us ++ vs) = placed off us ++ placed (off + 8 * us.length) vs := by
  induction us generalizing off with
  | nil => rfl
  | cons u us ih =>
    rw [cons_append, placed, ih (off + 8), placed, cons_append, length_cons]
    congr 3
    omega

theorem placed_inj : ∀ {us vs : List Nat} {off : Nat}, placed off us = placed off vs → us = vs
  | [], [], _, _ => rfl
  | _ :: _, _ :: _, _, h => by
    unfold placed at h
    injection h with hword hrest
    injection hword with _ hword
    rw [hword, placed_inj hrest]

/-- From `td` to `td'` the words of these items are appended. -/
structure Appends (td td' : TilingData) (xs : List Item) : Prop where
  dataSize : td'.dataSize = td.dataSize + 8 * (xs.filterMap Item.word).length
  writes : td'.writes = td.writes ++ placed td.dataSize (xs.filterMap Item.word)

theorem Appends.nil : Appends td td [] := ⟨rfl, (append_nil _).symm⟩

theorem Appends.trans (h : Appends td td' xs) (h' : Appends td' td'' ys) :
    Appends td td'' (xs ++ ys) := by
  refine ⟨?_, ?_⟩
  · rw [h'.dataSize, h.dataSize, filterMap_append, length_append, Nat.mul_add, Nat.add_assoc]
  · rw [h'.writes, h.writes, filterMap_append, placed_append, append_assoc, h.dataSize]

theorem Appends.foldlM {α : Type} {append : TilingData → α → Except AclnnStatus TilingData}
    {ofElem : α → List Item} : ∀ {elems : List α},
    (∀ td td', ∀ x ∈ elems, append td x = .ok td' → Appends td td' (ofElem x)) →
    ∀ {td td'}, elems.foldlM append td = .ok td' → Appends td td' (elems.flatMap ofElem)
  | [], _, _, _, h => by
    cases h
    exact .nil
  | x :: elems, hstep, td, td', h => by
    rw [foldlM_cons] at h
    obtain ⟨mid, hx, h⟩ := bind_eq_ok.mp h
    exact (hstep td mid x mem_cons_self hx).trans
      (Appends.foldlM (fun td td' y hy => hstep td td' y (mem_cons_of_mem x hy)) h)

theorem appends_appendWord {x : Item} {word : Nat} (hword : x.word = some word)
    (h : td.appendWord word = .ok td') : Appends td td' [x] := by
  unfold TilingData.appendWord at h
  split at h
  next => cases h
  next =>
    cases h
    have hwords : [x].filterMap Item.word = [word] := by
      rw [filterMap_cons, hword, filterMap_nil]
    exact ⟨by rw [hwords]; rfl, by rw [hwords]; rfl⟩

theorem appends_appendTensorShape {genPlaceholder : Bool}
    (hnone : ofElem none = if genPlaceholder then [.placeholder] else [])
    (hsome : ∀ t, ∃ x : Item, ofElem (some t) = [x] ∧ x.word = some (alignSize t.shapeBytes 32))
    {tensor : Option Tensor} (h : td.appendTensorShape genPlaceholder tensor = .ok td') :
    Appends td td' (ofElem tensor) := by
  cases tensor with
  | none =>
    rw [hnone]
    unfold TilingData.appendTensorShape at h
    dsimp only at h
    split at h
    next hp =>
      rw [if_pos hp]
      exact appends_appendWord rfl h
    next hp =>
      rw [if_neg hp]
      cases h
      exact .nil
  | some t =>
    obtain ⟨x, hx, hword⟩ := hsome t
    rw [hx]
    exact appends_appendWord hword h

theorem appends_appendListShape {genPlaceholder hasDevPtrArg : Bool}
    (helem : ∀ td td' t, td.appendTensorShape genPlaceholder t = .ok td' →
      Appends td td' (ofElem t)) {tensors : Option (List (Option Tensor))}
    (h : td.appendListShape genPlaceholder hasDevPtrArg tensors = .ok td') :
    Appends td td' (Item.ofList hasDevPtrArg ofElem tensors) := by
  cases tensors with
  | none =>
    cases h
    exact .nil
  | some tensors =>
    unfold TilingData.appendListShape at h
    unfold Item.ofList
    dsimp only at h ⊢
    split at h
    next hp =>
      rw [if_pos hp]
      exact appends_appendWord rfl h
    next hp =>
      rw [if_neg hp]
      exact .foldlM (fun td td' t _ => helem td td' t) h

theorem appends_appendMemsetShape {tensors : List (Nat × Option Tensor)}
    (h : td.appendMemsetShape tensors = .ok td') :
    Appends td td' (tensors.map fun elem => .memset elem.1 elem.2) := by
  rw [map_eq_flatMap]
  refine .foldlM (fun td td' elem _ hstep => ?_) h
  cases htensor : elem.2 with
  | none =>
    rw [htensor] at hstep
    cases hstep
    exact ⟨rfl, (append_nil _).symm⟩
  | some t =>
    rw [htensor] at hstep
    exact appends_appendWord rfl hstep

theorem appends_input (h : appendTensorShapeInfo bin .opInputArg td arg = .ok td') :
    Appends td td' (Item.ofArg bin.hasDevPtrArg (Item.ofInput bin) arg) := by
  have helem : ∀ td td' t, td.appendTensorShape bin.genPlaceholder t = .ok td' →
      Appends td td' (Item.ofInput bin t) :=
    fun td td' t => appends_appendTensorShape rfl fun t => ⟨.input t, rfl, rfl⟩
  cases arg with
  | aclTensor tensor => exact helem td td' tensor h
  | aclTensorList tensors => exact appends_appendListShape helem h
  | memsetWorkspace tensors => exact appends_appendMemsetShape h
  | other =>
    cases h
    exact .nil

theorem appends_ofOutput (td td' : TilingData) (tensor : Option Tensor)
    (h : td.appendTensorShape false tensor = .ok td') : Appends td td' (Item.ofOutput tensor) :=
  appends_appendTensorShape rfl (fun t => ⟨.output t, rfl, rfl⟩) h

theorem appends_output (h : appendTensorShapeInfo bin .opOutputArg td arg = .ok td') :
    Appends td td' (Item.ofArg bin.hasDevPtrArg Item.ofOutput arg) := by
  cases arg with
  | aclTensor tensor => exact appends_ofOutput td td' tensor h
  | aclTensorList tensors => exact appends_appendListShape appends_ofOutput h
  | memsetWorkspace tensors => exact appends_appendMemsetShape h
  | other =>
    cases h
    exact .nil

theorem appends_workspace (h : appendTensorShapeInfo bin .opWorkspaceArg td arg = .ok td') :
    Appends td td' (Item.ofArg false Item.ofOutput arg) := by
  cases arg with
  | aclTensor tensor => exact appends_ofOutput td td' tensor h
  | aclTensorList tensors => exact appends_appendListShape appends_ofOutput h
  | memsetWorkspace tensors => exact appends_appendMemsetShape h
  | other =>
    cases h
    exact .nil

/-- If all sizes are appended, they are those of the items. -/
theorem appends_appendTilingOOMInfo {args : OpArgContext}
    (h : appendTilingOOMInfo bin td args = .ok td') :
    Appends { td with dataSize := bin.oomStart td } td' (items bin args) := by
  unfold appendTilingOOMInfo at h
  dsimp only at h
  split at h
  next => cases h
  next =>
    obtain ⟨td₁, hinputs, h⟩ := bind_eq_ok.mp h
    obtain ⟨td₂, houtputs, h⟩ := bind_eq_ok.mp h
    obtain ⟨td₃, houtShape, hworkspace⟩ := bind_eq_ok.mp h
    have hshape : Appends td₂ td₃ (args.outShape.toList.map Item.outShape) := by
      cases hargs : args.outShape with
      | none =>
        rw [hargs] at houtShape
        cases houtShape
        exact .nil
      | some t =>
        rw [hargs] at houtShape
        exact appends_appendWord rfl houtShape
    have hin : Appends _ td₁ (args.inputs.flatMap
        (Item.ofArg bin.hasDevPtrArg (Item.ofInput bin))) :=
      .foldlM (fun _ _ _ _ h => appends_input h) hinputs
    have hout : Appends td₁ td₂ (args.outputs.flatMap
        (Item.ofArg bin.hasDevPtrArg Item.ofOutput)) :=
      .foldlM (fun _ _ _ _ h => appends_output h) houtputs
    have hws : Appends td₃ td' (args.workspace.flatMap (Item.ofArg false Item.ofOutput)) :=
      .foldlM (fun _ _ _ _ h => appends_workspace h) hworkspace
    exact ((hin.trans hout).trans hshape).trans hws

/-! ## The sizes of the entries -/

/-- The word an entry is to have: the bytes of a tensor up to the next multiple of 32, those of
a list as they are, zero for a placeholder. -/
def ArgAddr.word : ArgAddr → Nat
  | deviceArg none _ _ => 0
  | deviceArg (some t) _ _ => alignSize t.shapeBytes 32
  | hostArg _ hostDataLen _ => alignSize hostDataLen 32
  | devicePtrArg _ ptrListLen => ptrListLen

/-- The words appended are those of the entries, in order. -/
def LinesUp (bin : OpKernelBin) (args : OpArgContext) (td td' : TilingData) : Prop :=
  td'.dataSize = bin.oomStart td + 8 * (launchArgInfo bin args).allArg.length ∧
  td'.writes = td.writes ++
    placed (bin.oomStart td) ((launchArgInfo bin args).allArg.map ArgAddr.word)

/-- A host tensor counted by `GetSizeByDataType` and by `CalcShapeBytes` comes to the same
multiple of 32. -/
def OpKernelBin.HostSizeAgrees (bin : OpKernelBin) (t : Tensor) : Prop :=
  alignSize (bin.hostDataLen t) 32 = alignSize t.shapeBytes 32

theorem toSizeT_wrapInt64 (n : Int) : toSizeT (wrapInt64 n) = toSizeT n := by
  unfold toSizeT wrapInt64
  exact congrArg Int.toNat Int.bmod_emod

theorem hostSizeAgrees_of_bytes {t : Tensor}
    (hsize : bin.getSizeByDataType t.dataType = typeSize t.dataType)
    (hbytes : typeSize t.dataType ≤ kDataTypeSizeBitOffset) : bin.HostSizeAgrees t := by
  have hlen : bin.hostDataLen t = t.shapeBytes := by
    unfold OpKernelBin.hostDataLen Tensor.shapeBytes calcShapeBytes
    rw [if_neg (Nat.not_lt.mpr hbytes), hsize, mulOverflow, toSizeT_wrapInt64, Int.mul_comm]
  unfold OpKernelBin.HostSizeAgrees
  rw [hlen]

theorem toSizeT_of_lt {n : Int} (hnonneg : 0 ≤ n) (hlt : n < 2 ^ 64) : toSizeT n = n.toNat := by
  unfold toSizeT
  rw [Int.emod_eq_of_lt hnonneg hlt]

theorem wrapInt64_of_lt {n : Int} (hnonneg : 0 ≤ n) (hlt : n < 2 ^ 63) : wrapInt64 n = n :=
  Int.bmod_eq_of_le (by omega) (by omega)

theorem le_alignSize {n : Nat} (h : n + 32 ≤ 2 ^ 64) : n ≤ alignSize n 32 := by
  unfold alignSize
  omega

theorem alignSize_lt (n : Nat) : alignSize n 32 ≤ n + 31 := by
  unfold alignSize
  omega

/-- For types of less than a byte the two sizes differ. -/
theorem not_hostSizeAgrees_of_bits {t : Tensor}
    (hsize : bin.getSizeByDataType t.dataType = typeSize t.dataType)
    (hbits : kDataTypeSizeBitOffset < typeSize t.dataType) (hpos : 0 < t.size)
    (hlt : t.size < 2 ^ 52) : ¬ bin.HostSizeAgrees t := by
  -- such a type gives its size in bits, above the offset
  obtain ⟨k, hk⟩ : ∃ k, typeSize t.dataType = kDataTypeSizeBitOffset + k :=
    ⟨_, (Nat.add_sub_of_le (Nat.le_of_lt hbits)).symm⟩
  have hk6 : k ≤ 6 := by
    have := typeSize_le t.dataType
    rw [hk] at this
    exact Nat.le_of_add_le_add_left this
  have hlow : 1 * t.size ≤ k * t.size :=
    Int.mul_le_mul_of_nonneg_right (by omega) (Int.le_of_lt hpos)
  have hhigh : k * t.size ≤ 6 * t.size :=
    Int.mul_le_mul_of_nonneg_right (by omega) (Int.le_of_lt hpos)
  have hlen : bin.hostDataLen t = (1000 * t.size + k * t.size).toNat := by
    unfold OpKernelBin.hostDataLen
    rw [hsize, hk, Int.mul_comm, Int.natCast_add, Int.add_mul]
    exact toSizeT_of_lt (by unfold kDataTypeSizeBitOffset; omega)
      (by unfold kDataTypeSizeBitOffset; omega)
  have hwrap : wrapInt64 (k * t.size) = k * t.size := wrapInt64_of_lt (by omega) (by omega)
  have hbytes : t.shapeBytes = ((k * t.size + 7) / 8).toNat := by
    unfold Tensor.shapeBytes calcShapeBytes
    rw [if_pos hbits, hk, Nat.add_sub_cancel_left, mulOverflow]
    dsimp only
    rw [hwrap, if_pos (show (!false) = true from rfl), wrapInt64_of_lt (by omega) (by omega),
      Int.shiftRight_eq_div_pow]
    exact toSizeT_of_lt (by omega) (by omega)
  intro h
  unfold OpKernelBin.HostSizeAgrees at h
  have hle := le_alignSize (n := bin.hostDataLen t) (by omega)
  have hge := alignSize_lt t.shapeBytes
  omega

/-! ## Where the words are those of the entries -/

theorem filterMap_eq_map_iff {α β : Type} {f : α → Option β} {g : α → β} {l : List α} :
    l.filterMap f = l.map g ↔ ∀ x ∈ l, f x = some (g x) := by
  induction l with
  | nil => simp
  | cons x l ih =>
    rw [forall_mem_cons, ← ih, map_cons, filterMap_cons]
    cases hx : f x with
    | none =>
      refine iff_of_false (fun h => ?_) (fun h => nomatch h.1)
      have hle := length_filterMap_le f l
      have hlen : (l.filterMap f).length = (g x :: l.map g).length := congrArg List.length h
      rw [length_cons, length_map] at hlen
      omega
    | some y => rw [Option.some.injEq, List.cons.injEq]

theorem word_entry_iff {x : Item} :
    x.word = some (x.entry bin).word ↔
      (∀ addr, x ≠ .memset addr none) ∧
        ∀ t, x = .input t → t.onDevice = false → bin.HostSizeAgrees t := by
  cases x with
  | input t =>
    by_cases ht : t.onDevice = true
    · simp [Item.word, Item.entry, ArgAddr.word, ht]
    · have hentry : Item.entry bin (.input t) = .hostArg t.data (bin.hostDataLen t) t := if_neg ht
      rw [hentry]
      constructor
      · intro h
        refine ⟨nofun, fun t' heq _ => ?_⟩
        cases heq
        exact (Option.some.inj h).symm
      · intro ⟨_, h⟩
        exact congrArg some (h t rfl (Bool.not_eq_true _ ▸ ht)).symm
  | memset addr tensor =>
    cases tensor with
    | none => simp [Item.word]
    | some t => simp [Item.word, Item.entry, ArgAddr.word]
  | placeholder | output _ | list _ | outShape _ => simp [Item.word, Item.entry, ArgAddr.word]

variable {args : OpArgContext}

theorem linesUp_iff_words (h : appendTilingOOMInfo bin td args = .ok td') :
    LinesUp bin args td td' ↔
      (items bin args).filterMap Item.word = (items bin args).map fun x => (x.entry bin).word := by
  have happends := appends_appendTilingOOMInfo h
  have hentries : (launchArgInfo bin args).allArg.map ArgAddr.word =
      (items bin args).map fun x => (x.entry bin).word := by
    rw [(described_launchArgInfo bin args).1, map_map]
    rfl
  unfold LinesUp
  rw [hentries, happends.writes, happends.dataSize, ← length_map ArgAddr.word, hentries]
  constructor
  · intro ⟨_, hwrites⟩
    exact placed_inj (append_cancel_left hwrites)
  · intro hwords
    rw [hwords]
    exact ⟨rfl, rfl⟩

/-- The words are the sizes of the entries exactly if every memset has a tensor and the host
inputs agree; those of whole bytes do, those counted in bits do not. -/
theorem tiling_oom_lines_up (bin : OpKernelBin) (args : OpArgContext) (td td' : TilingData)
    (h : appendTilingOOMInfo bin td args = .ok td') :
    (LinesUp bin args td td' ↔
      args.MemsetsGiven ∧ ∀ t ∈ args.hostInputs bin, bin.HostSizeAgrees t) ∧
    ∀ t : Tensor, bin.getSizeByDataType t.dataType = typeSize t.dataType →
      (typeSize t.dataType ≤ kDataTypeSizeBitOffset → bin.HostSizeAgrees t) ∧
      (kDataTypeSizeBitOffset < typeSize t.dataType → 0 < t.size → t.size < 2 ^ 52 →
        ¬ bin.HostSizeAgrees t) := by
  refine ⟨?_, fun t hsize => ⟨hostSizeAgrees_of_bytes hsize, not_hostSizeAgrees_of_bits hsize⟩⟩
  rw [linesUp_iff_words h, filterMap_eq_map_iff, OpArgContext.memsetsGiven_iff bin]
  constructor
  · intro hall
    refine ⟨fun addr hmem => (word_entry_iff.mp (hall _ hmem)).1 addr rfl, fun t ht => ?_⟩
    obtain ⟨hmem, hhost⟩ := OpArgContext.mem_hostInputs.mp ht
    exact (word_entry_iff.mp (hall _ hmem)).2 t rfl hhost
  · intro ⟨hgiven, hagree⟩ x hx
    refine word_entry_iff.mpr ⟨fun addr heq => hgiven addr (heq ▸ hx), fun t heq hhost => ?_⟩
    exact hagree t (OpArgContext.mem_hostInputs.mpr ⟨heq ▸ hx, hhost⟩)

/-- A tensor of a few elements. -/
def smallTensor (onDevice : Bool) (dataType : DataType) : Tensor :=
  ⟨onDevice, 10, dataType, [10], 4096, 40⟩

/-- The sizes of the library's table. -/
def tableBin : OpKernelBin :=
  ⟨true, true, 0, fun dataType => (dataTypeSize[dataType.code.toNat]?).getD (-1)⟩

/-- A null input with a placeholder, a list, a null output, output shapes and a memset. -/
def mixedArgs : OpArgContext where
  inputs := [.aclTensor none, .aclTensorList (some [none, some (smallTensor true .DT_FLOAT)]),
    .aclTensor (some (smallTensor false .DT_INT64))]
  outputs := [.aclTensor none, .aclTensor (some (smallTensor true .DT_INT4))]
  outShape := some (smallTensor true .DT_UINT64)
  workspace := [.memsetWorkspace [(8, some (smallTensor true .DT_FLOAT16))]]
  inputs_plain := by simp
  outputs_plain := by simp

theorem tiling_oom_lines_up_mixed : ∃ td', appendTilingOOMInfo tableBin ⟨256, 13, []⟩ mixedArgs =
      .ok td' ∧ LinesUp tableBin mixedArgs ⟨256, 13, []⟩ td' := by
  refine ⟨_, rfl, (tiling_oom_lines_up tableBin mixedArgs ⟨256, 13, []⟩ _ rfl).1.mpr ⟨?_, ?_⟩⟩
  · unfold OpArgContext.MemsetsGiven
    decide
  · unfold OpKernelBin.HostSizeAgrees
    decide

/-- Only a memset, of a tensor that is null. -/
def nullMemsetArgs : OpArgContext where
  inputs := []
  outputs := []
  outShape := none
  workspace := [.memsetWorkspace [(8, none)]]
  inputs_plain := by simp
  outputs_plain := by simp

/-- Only an input on the host. -/
def hostArgs (dataType : DataType) : OpArgContext where
  inputs := [.aclTensor (some (smallTensor false dataType))]
  outputs := []
  outShape := none
  workspace := []
  inputs_plain := by simp
  outputs_plain := by simp

/-- An entry without a word, and a word that is not the size of its entry: ten elements of four
bits on the host. -/
theorem tiling_oom_slips :
    (∃ td', appendTilingOOMInfo tableBin ⟨256, 0, []⟩ nullMemsetArgs = .ok td' ∧
      ¬ LinesUp tableBin nullMemsetArgs ⟨256, 0, []⟩ td') ∧
    ∃ td', appendTilingOOMInfo tableBin ⟨256, 0, []⟩ (hostArgs .DT_INT4) = .ok td' ∧
      ¬ LinesUp tableBin (hostArgs .DT_INT4) ⟨256, 0, []⟩ td' := by
  unfold LinesUp
  exact ⟨⟨_, rfl, by decide⟩, ⟨_, rfl, by decide⟩⟩

end OpBase.LaunchArg
