import OpBase.Base.DataType

/-!
# The arguments of a launch

`launch_arg_info.h`: before a kernel is launched `LaunchArgInfo` collects an entry for each
argument from the groups of the argument context: inputs, outputs, the tensor for output
shapes, workspaces. A null input has a *placeholder* as its entry if the binary asks for them,
a null output has none, and a tensor list is one entry if the binary takes lists by pointer.
On the way the bytes of the exception-dump info are added up.

`items` says what the entries are there for. Whatever else goes over the same groups is
compared with it and not with the entries.

> `described_launchArgInfo`: the entries and the size of the dump info are those of the items.
-/

namespace OpBase.LaunchArg

open List

/-! ## Arguments -/

/-- What is read of an `aclTensor`: `GetPlacement() == kOnDeviceHbm`, `Size()`, the type, the
dimensions of the storage shape, `GetData()` and `GetTensor()->GetSize()`. -/
structure Tensor where
  onDevice : Bool
  size : Int
  dataType : DataType
  storageShape : List Int
  data : Nat
  tensorSize : Nat
deriving DecidableEq

def Tensor.dimNum (t : Tensor) : Nat := t.storageShape.length

/-- `OpArg`, with the types of argument that are told apart. Any pointer may be null but that
to the vector of a memset, which has an address with each tensor. -/
inductive OpArg where
  | aclTensor (tensor : Option Tensor)
  | aclTensorList (tensors : Option (List (Option Tensor)))
  | memsetWorkspace (tensors : List (Nat × Option Tensor))
  | other

/-- `OpArgContext`. Of the arguments for output shapes only the first is read, which is a
tensor. Memsets have their tensors among the workspaces. -/
structure OpArgContext where
  inputs : List OpArg
  outputs : List OpArg
  outShape : Option Tensor
  workspace : List OpArg
  inputs_plain : ∀ arg ∈ inputs, ∀ tensors, arg ≠ .memsetWorkspace tensors
  outputs_plain : ∀ arg ∈ outputs, ∀ tensors, arg ≠ .memsetWorkspace tensors

/-- What is read of an `OpKernelBin`; the library's `ge::GetSizeByDataType` is taken as given. -/
structure OpKernelBin where
  genPlaceholder : Bool
  hasDevPtrArg : Bool
  oriOpParaSize : Nat
  getSizeByDataType : DataType → Int

/-- What a number is as a `size_t`. -/
def toSizeT (n : Int) : Nat := (n % 2 ^ 64).toNat

/-- `AlignSize`, to a power of two. -/
def alignSize (sizeToAlign powerOfTwo : Nat) : Nat :=
  (sizeToAlign + powerOfTwo - 1) / powerOfTwo * powerOfTwo % 2 ^ 64

/-! ## Collecting -/

/-- `LaunchArgInfo::ArgAddr`. -/
inductive ArgAddr where
  | deviceArg (tensor : Option Tensor) (devAddr : Nat) (isOutShapeTensor : Bool)
  | hostArg (hostAddr hostDataLen : Nat) (hostTensor : Tensor)
  | devicePtrArg (tensors : List (Option Tensor)) (ptrListLen : Nat)
deriving DecidableEq

/-- `LaunchArgInfo`, without the tiling data. -/
structure LaunchArgInfo where
  allArg : List ArgAddr
  devArgNum : Nat
  hostArgNum : Nat
  tensorNum : Nat
  dfxInfoDumpSize : Nat
  firstWorkspaceIdx : Nat
deriving DecidableEq

/-- `CalAdumpDFXInfoSize`. -/
def calAdumpDFXInfoSize : Option Tensor → Nat
  | none => 0
  | some t => if t.dimNum = 0 then 8 + 8 + 8 else 8 + 8 + t.dimNum * 8

/-- The bytes of a list behind its pointer: an offset, and a word for each tensor and for each
dimension. -/
def ptrListLen (tensors : List (Option Tensor)) : Nat :=
  tensors.foldl (fun dataSize t => dataSize + 8 + t.elim 0 fun t => t.dimNum * 8) 8

/-- The bytes of a tensor on the host. -/
def OpKernelBin.hostDataLen (bin : OpKernelBin) (t : Tensor) : Nat :=
  toSizeT (t.size * bin.getSizeByDataType t.dataType)

namespace LaunchArgInfo

def init : LaunchArgInfo := ⟨[], 0, 0, 0, 0, 0⟩

/-- An entry of its own for a list. -/
def appendDevPtr (info : LaunchArgInfo) (tensors : List (Option Tensor)) : LaunchArgInfo :=
  { info with
    allArg := info.allArg ++ [.devicePtrArg tensors (ptrListLen tensors)]
    devArgNum := info.devArgNum + 1
    tensorNum := info.tensorNum + (tensors.length + 1)
    dfxInfoDumpSize := info.dfxInfoDumpSize + 8 }

/-- `AppendInputLaunchArg` for a tensor. -/
def appendInputTensor (bin : OpKernelBin) (info : LaunchArgInfo) : Option Tensor → LaunchArgInfo
  | none =>
    if bin.genPlaceholder then
      { info with
        allArg := info.allArg ++ [.deviceArg none 0 false]
        devArgNum := info.devArgNum + 1
        tensorNum := info.tensorNum + 1
        dfxInfoDumpSize := info.dfxInfoDumpSize + 8 }
    else info
  | some t =>
    let info : LaunchArgInfo :=
      if t.onDevice then
        { info with
          allArg := info.allArg ++ [.deviceArg (some t) t.data false]
          devArgNum := info.devArgNum + 1
          tensorNum := info.tensorNum + 1 }
      else
        { info with
          allArg := info.allArg ++ [.hostArg t.data (bin.hostDataLen t) t]
          hostArgNum := info.hostArgNum + 1
          tensorNum := info.tensorNum + 1 }
    { info with dfxInfoDumpSize := info.dfxInfoDumpSize + calAdumpDFXInfoSize (some t) }

/-- `AppendInputLaunchArg` for a list. -/
def appendInputList (bin : OpKernelBin) (info : LaunchArgInfo) :
    Option (List (Option Tensor)) → LaunchArgInfo
  | none => info
  | some tensors =>
    if bin.hasDevPtrArg then info.appendDevPtr tensors
    else tensors.foldl (appendInputTensor bin) info

/-- `AppendInputLaunchArg`. -/
def appendInputLaunchArg (bin : OpKernelBin) (info : LaunchArgInfo) : OpArg → LaunchArgInfo
  | .aclTensor tensor => info.appendInputTensor bin tensor
  | .aclTensorList tensors => info.appendInputList bin tensors
  | _ => info

/-- `AppendLaunchArg` for a tensor. -/
def appendTensor (info : LaunchArgInfo) : Option Tensor → LaunchArgInfo
  | none => info
  | some t =>
    { info with
      allArg := info.allArg ++ [.deviceArg (some t) t.data false]
      devArgNum := info.devArgNum + 1
      tensorNum := info.tensorNum + 1
      dfxInfoDumpSize := info.dfxInfoDumpSize + calAdumpDFXInfoSize (some t) }

/-- `AppendLaunchArg` for a list. -/
def appendList (bin : OpKernelBin) (info : LaunchArgInfo) :
    Option (List (Option Tensor)) → LaunchArgInfo
  | none => info
  | some tensors =>
    if bin.hasDevPtrArg then info.appendDevPtr tensors else tensors.foldl appendTensor info

/-- `AppendLaunchArg`. -/
def appendLaunchArg (bin : OpKernelBin) (info : LaunchArgInfo) : OpArg → LaunchArgInfo
  | .aclTensor tensor => info.appendTensor tensor
  | .aclTensorList tensors => info.appendList bin tensors
  | _ => info

/-- `AppendOutshapeLaunchArg`. -/
def appendOutshapeLaunchArg (info : LaunchArgInfo) (t : Tensor) : LaunchArgInfo :=
  { info with
    allArg := info.allArg ++ [.deviceArg (some t) t.data true]
    devArgNum := info.devArgNum + 1
    tensorNum := info.tensorNum + 1
    dfxInfoDumpSize := info.dfxInfoDumpSize + 8 }

/-- The body of the loop of `AppendWorkspaceLaunchArg` for a memset. A null tensor has an
entry too. -/
def appendMemset (info : LaunchArgInfo) (elem : Nat × Option Tensor) : LaunchArgInfo :=
  { info with
    allArg := info.allArg ++ [.deviceArg elem.2 elem.1 false]
    devArgNum := info.devArgNum + 1
    tensorNum := info.tensorNum + 1
    dfxInfoDumpSize := info.dfxInfoDumpSize + calAdumpDFXInfoSize elem.2 }

/-- `AppendWorkspaceLaunchArg`. -/
def appendWorkspaceLaunchArg (info : LaunchArgInfo) (arg : OpArg) : LaunchArgInfo :=
  let info := if info.firstWorkspaceIdx = 0 then
    { info with firstWorkspaceIdx := info.allArg.length } else info
  match arg with
  | .aclTensor tensor => info.appendTensor tensor
  | .aclTensorList none => info
  | .aclTensorList (some tensors) => tensors.foldl appendTensor info
  | .memsetWorkspace tensors => tensors.foldl appendMemset info
  | .other => info

end LaunchArgInfo

open LaunchArgInfo

/-- The constructor of `LaunchArgInfo`. -/
def launchArgInfo (bin : OpKernelBin) (args : OpArgContext) : LaunchArgInfo :=
  let info := args.inputs.foldl (appendInputLaunchArg bin) init
  let info := args.outputs.foldl (appendLaunchArg bin) info
  let info := match args.outShape with
    | some t => info.appendOutshapeLaunchArg t
    | none => info
  args.workspace.foldl appendWorkspaceLaunchArg info

/-! ## What the entries are there for -/

/-- What an entry of a launch stands for. -/
inductive Item where
  | placeholder
  | input (t : Tensor)
  | output (t : Tensor)
  | list (tensors : List (Option Tensor))
  | outShape (t : Tensor)
  | memset (addr : Nat) (tensor : Option Tensor)

namespace Item

/-- The entry. -/
def entry (bin : OpKernelBin) : Item → ArgAddr
  | placeholder => .deviceArg none 0 false
  | input t =>
    if t.onDevice then .deviceArg (some t) t.data false
    else .hostArg t.data (bin.hostDataLen t) t
  | output t => .deviceArg (some t) t.data false
  | list tensors => .devicePtrArg tensors (ptrListLen tensors)
  | outShape t => .deviceArg (some t) t.data true
  | memset addr tensor => .deviceArg tensor addr false

/-- The bytes of the dump info added for it. -/
def dumpSize : Item → Nat
  | input t | output t => calAdumpDFXInfoSize (some t)
  | memset _ tensor => calAdumpDFXInfoSize tensor
  | _ => 8

def ofInput (bin : OpKernelBin) : Option Tensor → List Item
  | none => if bin.genPlaceholder then [placeholder] else []
  | some t => [input t]

def ofOutput : Option Tensor → List Item
  | none => []
  | some t => [output t]

/-- A list is an item or has those of its elements. -/
def ofList (asList : Bool) (ofElem : Option Tensor → List Item) :
    Option (List (Option Tensor)) → List Item
  | none => []
  | some tensors => if asList then [list tensors] else tensors.flatMap ofElem

/-- An argument of a group with these items for a tensor. -/
def ofArg (asList : Bool) (ofElem : Option Tensor → List Item) : OpArg → List Item
  | .aclTensor tensor => ofElem tensor
  | .aclTensorList tensors => ofList asList ofElem tensors
  | .memsetWorkspace tensors => tensors.map fun elem => memset elem.1 elem.2
  | .other => []

end Item

/-- Everything the context has for a launch, in order. -/
def items (bin : OpKernelBin) (args : OpArgContext) : List Item :=
  args.inputs.flatMap (Item.ofArg bin.hasDevPtrArg (Item.ofInput bin)) ++
    args.outputs.flatMap (Item.ofArg bin.hasDevPtrArg Item.ofOutput) ++
    args.outShape.toList.map Item.outShape ++
    args.workspace.flatMap (Item.ofArg false Item.ofOutput)

/-! ## The collected entries are those of the items -/

variable {bin : OpKernelBin} {info info' info'' : LaunchArgInfo} {xs ys : List Item}

/-- From `info` to `info'` these items are collected. -/
structure Collects (bin : OpKernelBin) (info info' : LaunchArgInfo) (xs : List Item) : Prop where
  allArg : info'.allArg = info.allArg ++ xs.map (Item.entry bin)
  dumpSize : info'.dfxInfoDumpSize = info.dfxInfoDumpSize + (xs.map Item.dumpSize).sum
  argNum : info'.devArgNum + info'.hostArgNum = info.devArgNum + info.hostArgNum + xs.length

theorem Collects.nil : Collects bin info info [] :=
  ⟨(append_nil _).symm, rfl, rfl⟩

theorem Collects.trans (h : Collects bin info info' xs) (h' : Collects bin info' info'' ys) :
    Collects bin info info'' (xs ++ ys) := by
  refine ⟨?_, ?_, ?_⟩
  · rw [h'.allArg, h.allArg, append_assoc, map_append]
  · rw [h'.dumpSize, h.dumpSize, Nat.add_assoc, map_append, sum_append]
  · rw [h'.argNum, h.argNum, Nat.add_assoc, length_append]

/-- What the elements of a list add is collected in order. -/
theorem Collects.foldl {α : Type} {append : LaunchArgInfo → α → LaunchArgInfo}
    {ofElem : α → List Item} : ∀ {elems : List α},
    (∀ info, ∀ x ∈ elems, Collects bin info (append info x) (ofElem x)) →
    ∀ info, Collects bin info (elems.foldl append info) (elems.flatMap ofElem)
  | [], _, _ => .nil
  | x :: _, hstep, info =>
    (hstep info x mem_cons_self).trans
      (Collects.foldl (fun info y hy => hstep info y (mem_cons_of_mem x hy)) _)

variable (info : LaunchArgInfo) {arg : OpArg}

theorem collects_appendDevPtr (tensors : List (Option Tensor)) :
    Collects bin info (info.appendDevPtr tensors) [.list tensors] :=
  ⟨rfl, rfl, Nat.add_right_comm _ _ _⟩

theorem collects_appendInputTensor (tensor : Option Tensor) :
    Collects bin info (info.appendInputTensor bin tensor) (Item.ofInput bin tensor) := by
  cases tensor with
  | none =>
    unfold appendInputTensor Item.ofInput
    dsimp only
    by_cases hp : bin.genPlaceholder = true
    · rw [if_pos hp, if_pos hp]
      exact ⟨rfl, rfl, Nat.add_right_comm _ _ _⟩
    · rw [if_neg hp, if_neg hp]
      exact .nil
  | some t =>
    unfold appendInputTensor Item.ofInput
    dsimp only
    by_cases ht : t.onDevice = true
    · have hentry : Item.entry bin (.input t) = _ := if_pos ht
      rw [if_pos ht]
      exact ⟨congrArg (info.allArg ++ [·]) hentry.symm, rfl, Nat.add_right_comm _ _ _⟩
    · have hentry : Item.entry bin (.input t) = _ := if_neg ht
      rw [if_neg ht]
      exact ⟨congrArg (info.allArg ++ [·]) hentry.symm, rfl, rfl⟩

theorem collects_appendTensor (tensor : Option Tensor) :
    Collects bin info (info.appendTensor tensor) (Item.ofOutput tensor) := by
  cases tensor with
  | none => exact .nil
  | some t => exact ⟨rfl, rfl, Nat.add_right_comm _ _ _⟩

/-- An input adds its items. -/
theorem collects_appendInputLaunchArg (hplain : ∀ tensors, arg ≠ .memsetWorkspace tensors) :
    Collects bin info (info.appendInputLaunchArg bin arg)
      (Item.ofArg bin.hasDevPtrArg (Item.ofInput bin) arg) := by
  cases arg with
  | aclTensor tensor => exact collects_appendInputTensor info tensor
  | aclTensorList tensors =>
    cases tensors with
    | none => exact .nil
    | some tensors =>
      unfold appendInputLaunchArg appendInputList Item.ofArg Item.ofList
      dsimp only
      split
      next => exact collects_appendDevPtr info tensors
      next => exact .foldl (fun info t _ => collects_appendInputTensor info t) info
  | memsetWorkspace tensors => exact absurd rfl (hplain tensors)
  | other => exact .nil

/-- An output or a workspace adds its items. -/
theorem collects_appendLaunchArg (hplain : ∀ tensors, arg ≠ .memsetWorkspace tensors) :
    Collects bin info (info.appendLaunchArg bin arg)
      (Item.ofArg bin.hasDevPtrArg Item.ofOutput arg) := by
  cases arg with
  | aclTensor tensor => exact collects_appendTensor info tensor
  | aclTensorList tensors =>
    cases tensors with
    | none => exact .nil
    | some tensors =>
      unfold appendLaunchArg appendList Item.ofArg Item.ofList
      dsimp only
      split
      next => exact collects_appendDevPtr info tensors
      next => exact .foldl (fun info t _ => collects_appendTensor info t) info
  | memsetWorkspace tensors => exact absurd rfl (hplain tensors)
  | other => exact .nil

theorem collects_appendMemset (elem : Nat × Option Tensor) :
    Collects bin info (info.appendMemset elem) [.memset elem.1 elem.2] :=
  ⟨rfl, rfl, Nat.add_right_comm _ _ _⟩

theorem collects_appendWorkspaceLaunchArg (arg : OpArg) :
    Collects bin info (info.appendWorkspaceLaunchArg arg)
      (Item.ofArg false Item.ofOutput arg) := by
  -- Where the workspaces begin is noted first, which collects nothing.
  have hnoted : ∀ {info' xs}, Collects bin (if info.firstWorkspaceIdx = 0 then
        { info with firstWorkspaceIdx := info.allArg.length } else info) info' xs →
      Collects bin info info' xs := by
    intro info' xs h
    split at h
    next => exact ⟨h.allArg, h.dumpSize, h.argNum⟩
    next => exact h
  cases arg with
  | aclTensor tensor => exact hnoted (collects_appendTensor _ tensor)
  | aclTensorList tensors =>
    cases tensors with
    | none => exact hnoted .nil
    | some tensors => exact hnoted (.foldl (fun info t _ => collects_appendTensor info t) _)
  | memsetWorkspace tensors =>
    have hloop : ∀ info, Collects bin info (tensors.foldl appendMemset info)
        (tensors.flatMap fun elem => [Item.memset elem.1 elem.2]) :=
      .foldl fun info elem _ => collects_appendMemset info elem
    rw [← map_eq_flatMap] at hloop
    exact hnoted (hloop _)
  | other => exact hnoted .nil

/-- The entries and the sums of a launch are those of its items. -/
theorem described_launchArgInfo (bin : OpKernelBin) (args : OpArgContext) :
    (launchArgInfo bin args).allArg = (items bin args).map (Item.entry bin) ∧
    (launchArgInfo bin args).dfxInfoDumpSize = ((items bin args).map Item.dumpSize).sum ∧
    (launchArgInfo bin args).devArgNum + (launchArgInfo bin args).hostArgNum =
      (items bin args).length := by
  -- each part of the arguments adds its own items
  have hinputs : ∀ info, Collects bin info (args.inputs.foldl (appendInputLaunchArg bin) info)
      (args.inputs.flatMap (Item.ofArg bin.hasDevPtrArg (Item.ofInput bin))) :=
    .foldl fun info x hx => collects_appendInputLaunchArg info (args.inputs_plain x hx)
  have houtputs : ∀ info, Collects bin info (args.outputs.foldl (appendLaunchArg bin) info)
      (args.outputs.flatMap (Item.ofArg bin.hasDevPtrArg Item.ofOutput)) :=
    .foldl fun info x hx => collects_appendLaunchArg info (args.outputs_plain x hx)
  have houtShape : ∀ info, Collects bin info (match args.outShape with
      | some t => info.appendOutshapeLaunchArg t
      | none => info) (args.outShape.toList.map Item.outShape) := by
    intro info
    cases args.outShape with
    | none => exact .nil
    | some t => exact ⟨rfl, rfl, Nat.add_right_comm _ _ _⟩
  have hworkspace : ∀ info, Collects bin info (args.workspace.foldl appendWorkspaceLaunchArg info)
      (args.workspace.flatMap (Item.ofArg false Item.ofOutput)) :=
    .foldl fun info x _ => collects_appendWorkspaceLaunchArg info x
  have hall : Collects bin init (launchArgInfo bin args) (items bin args) :=
    (((hinputs init).trans (houtputs _)).trans (houtShape _)).trans (hworkspace _)
  refine ⟨hall.allArg, ?_, ?_⟩
  · rw [hall.dumpSize]
    exact Nat.zero_add _
  · rw [hall.argNum]
    exact Nat.zero_add _

/-! ## What items there are -/

namespace OpArg

/-- The tensors that are looked at one by one. -/
def elements (asList : Bool) : OpArg → List (Option Tensor)
  | aclTensor tensor => [tensor]
  | aclTensorList (some tensors) => if asList then [] else tensors
  | _ => []

/-- What a memset clears. -/
def memsets : OpArg → List (Nat × Option Tensor)
  | memsetWorkspace tensors => tensors
  | _ => []

end OpArg

namespace Item

variable {x : Item} {tensor : Option Tensor}

theorem mem_ofInput : x ∈ ofInput bin tensor ↔
    (bin.genPlaceholder = true ∧ tensor = none ∧ x = placeholder) ∨
      ∃ t, tensor = some t ∧ x = input t := by
  cases tensor with
  | none => simp [ofInput]
  | some t => simp [ofInput]

theorem mem_ofOutput : x ∈ ofOutput tensor ↔ ∃ t, tensor = some t ∧ x = output t := by
  cases tensor with
  | none | some _ => simp [ofOutput]

/-- The items of an argument: of its elements, of a list passed as one, or of memsets. -/
theorem mem_ofArg {asList : Bool} {ofElem : Option Tensor → List Item} :
    x ∈ ofArg asList ofElem arg ↔
      (∃ tensor ∈ arg.elements asList, x ∈ ofElem tensor) ∨
      (∃ tensors, asList = true ∧ arg = .aclTensorList (some tensors) ∧ x = list tensors) ∨
      ∃ elem ∈ arg.memsets, x = memset elem.1 elem.2 := by
  cases arg with
  | aclTensor tensor => simp [ofArg, OpArg.elements, OpArg.memsets]
  | aclTensorList tensors =>
    cases tensors with
    | none => simp [ofArg, ofList, OpArg.elements, OpArg.memsets]
    | some tensors =>
      cases asList with
      | false | true => simp [ofArg, ofList, OpArg.elements, OpArg.memsets]
  | memsetWorkspace tensors => simp [ofArg, OpArg.elements, OpArg.memsets, eq_comm]
  | other => simp [ofArg, OpArg.elements, OpArg.memsets]

end Item

namespace OpArgContext

variable {args : OpArgContext}

/-- Every memset has a tensor. -/
def MemsetsGiven (args : OpArgContext) : Prop :=
  ∀ arg ∈ args.workspace, ∀ elem ∈ arg.memsets, elem.2 ≠ none

/-- The input tensors with an entry of their own that are on the host. -/
def hostInputs (bin : OpKernelBin) (args : OpArgContext) : List Tensor :=
  (args.inputs.flatMap fun arg => (arg.elements bin.hasDevPtrArg).flatMap Option.toList).filter
    fun t => !t.onDevice

theorem memsets_inputs (harg : arg ∈ args.inputs) : arg.memsets = [] := by
  cases arg with
  | memsetWorkspace tensors => exact absurd rfl (args.inputs_plain _ harg tensors)
  | aclTensor _ => rfl
  | aclTensorList _ => rfl
  | other => rfl

theorem memsets_outputs (harg : arg ∈ args.outputs) : arg.memsets = [] := by
  cases arg with
  | memsetWorkspace tensors => exact absurd rfl (args.outputs_plain _ harg tensors)
  | aclTensor _ => rfl
  | aclTensorList _ => rfl
  | other => rfl

theorem memset_mem_items {addr : Nat} {tensor : Option Tensor} :
    Item.memset addr tensor ∈ items bin args ↔
      ∃ arg ∈ args.workspace, (addr, tensor) ∈ arg.memsets := by
  unfold items
  simp only [mem_append, mem_flatMap, Item.mem_ofArg, Item.mem_ofInput, Item.mem_ofOutput]
  constructor
  · rintro (((⟨arg, harg, h⟩ | ⟨arg, harg, h⟩) | h) | ⟨arg, harg, h⟩)
    · rw [memsets_inputs harg] at h
      simp at h
    · rw [memsets_outputs harg] at h
      simp at h
    · simp at h
    · refine ⟨arg, harg, ?_⟩
      simpa using h
  · rintro ⟨arg, harg, h⟩
    exact Or.inr ⟨arg, harg, Or.inr (Or.inr ⟨_, h, rfl⟩)⟩

/-- The vectors for a memset name all their tensors just when no item lacks one. -/
theorem memsetsGiven_iff (bin : OpKernelBin) :
    args.MemsetsGiven ↔ ∀ addr, Item.memset addr none ∉ items bin args := by
  simp only [memset_mem_items]
  constructor
  · intro h addr ⟨arg, harg, helem⟩
    exact h arg harg _ helem rfl
  · intro h arg harg elem helem hnone
    exact h elem.1 ⟨arg, harg, by rw [← hnone]; exact helem⟩

theorem mem_hostInputs {t : Tensor} :
    t ∈ args.hostInputs bin ↔ Item.input t ∈ items bin args ∧ t.onDevice = false := by
  unfold hostInputs items
  simp [Item.mem_ofArg, Item.mem_ofInput, Item.mem_ofOutput]

theorem genPlaceholder_of_mem (h : Item.placeholder ∈ items bin args) :
    bin.genPlaceholder = true := by
  unfold items at h
  simp only [mem_append, mem_flatMap, Item.mem_ofArg, Item.mem_ofInput, Item.mem_ofOutput] at h
  rcases h with ((⟨arg, -, h⟩ | ⟨arg, -, h⟩) | h) | ⟨arg, -, h⟩
  · rcases h with ⟨_, -, ⟨hplace, -⟩ | ⟨t, -, h⟩⟩ | ⟨_, -, -, h⟩ | ⟨_, -, h⟩
    · exact hplace
    · cases h
    · cases h
    · cases h
  · simp at h
  · simp at h
  · simp at h

end OpArgContext

end OpBase.LaunchArg
