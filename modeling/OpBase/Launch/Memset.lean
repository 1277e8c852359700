import OpBase.Launch.ArgInfo

/-!
# The tensors that are cleared before a launch

`op_kernel.h`: the binary's JSON names the parameters that have to be cleared by their index,
and `MemsetOutputTensor` looks up the tensors. It counts the inputs in one go and then goes
over the outputs, the workspaces and the tensor for output shapes, with the index of each.
`LaunchArgInfo` has the entries of the launch, in an order of its own.

An entry that names an input, or a tensor on the host, gets no tensor. Where the two number
the arguments alike, every other one gets the tensor of its entry.

> `memset_targets`: if the inputs are counted as they are launched, no list is one argument for
> the one and several for the other, and there are not both workspaces and a tensor for output
> shapes, then each index that is not that of an input is bound to the tensor that has this
> index at the launch, as far as that is on the device.
-/

namespace OpBase.LaunchArg

open LaunchArgInfo List

/-! ## What is to be cleared -/

/-- The types of argument that a `MemSetTensorInfo` tells apart. -/
inductive MemsetArgType where
  | aclTensor
  | aclTensorList
deriving DecidableEq

/-- `MemSetTensorInfo`, without the value it is cleared with. -/
structure MemSetTensorInfo where
  argIdx : Nat
  tensorSize : Nat := 0
  tensorDataSize : Nat := 0
  argType : MemsetArgType := .aclTensor
  tensorData : Nat := 0
  tensor : Option Tensor := none
  tensorList : Option (List (Option Tensor)) := none
deriving DecidableEq

/-- The chips that are told apart. -/
inductive SocVersion where
  | ascend910B
  | ascend91095
  | other
deriving DecidableEq

inductive MemsetVersion where
  | memsetV1
  | memsetV2
deriving DecidableEq

namespace SocVersion

def needAlign : SocVersion → Bool
  | ascend910B | ascend91095 => false
  | other => true

def memsetVersion : SocVersion → MemsetVersion
  | ascend91095 => .memsetV2
  | _ => .memsetV1

end SocVersion

/-! ## Counting the inputs -/

/-- `CalcAclTensorNum` for a tensor. -/
def calcTensorNum (num : Nat) : Option Tensor → Nat
  | none => num
  | some _ => num + 1

/-- `CalcAclTensorNum`. -/
def calcAclTensorNum (num : Nat) : OpArg → Nat
  | .aclTensor tensor => calcTensorNum num tensor
  | .aclTensorList (some tensors) => tensors.foldl calcTensorNum num
  | _ => num

def getAclTensorCount (args : List OpArg) : Nat := args.foldl calcAclTensorNum 0

def getArgCount4DevPtrArg (args : List OpArg) : Nat :=
  args.foldl (fun num arg =>
    match arg with
    | .aclTensor _ | .aclTensorList _ => num + 1
    | _ => num) 0

/-- Where `MemsetOutputTensor` has the outputs begin. -/
def OpKernelBin.inputNum (bin : OpKernelBin) (version : MemsetVersion) (inputs : List OpArg) :
    Nat :=
  match version with
  | .memsetV2 =>
    if bin.hasDevPtrArg then getArgCount4DevPtrArg inputs else getAclTensorCount inputs
  | .memsetV1 => getAclTensorCount inputs

/-! ## Going over the arguments -/

/-- `memSetValueCtx_` and `allIdx`. -/
structure Collector where
  memSetValueCtx : List MemSetTensorInfo
  allIdx : Nat
deriving DecidableEq

/-- The loops over `memSetValueCtx_`, which stop at the first with the index. -/
def bindFirst (bind : MemSetTensorInfo → MemSetTensorInfo) (allIdx : Nat) :
    List MemSetTensorInfo → List MemSetTensorInfo
  | [] => []
  | elem :: rest =>
    if allIdx = elem.argIdx then bind elem :: rest else elem :: bindFirst bind allIdx rest

namespace MemSetTensorInfo

/-- What is assigned for a tensor. `OP_KERNEL_BLOCK_SIZE` is 32. -/
def bindTensor (bin : OpKernelBin) (needAlign : Bool) (t : Tensor) (elem : MemSetTensorInfo) :
    MemSetTensorInfo :=
  { elem with
    tensorDataSize :=
      if needAlign then (32 + alignSize (bin.hostDataLen t) 32) % 2 ^ 64 else bin.hostDataLen t
    argType := .aclTensor
    tensorSize := toSizeT t.size
    tensorData := t.data
    tensor := some t }

/-- What is assigned for a list that is one argument. -/
def bindList (tensors : List (Option Tensor)) (elem : MemSetTensorInfo) : MemSetTensorInfo :=
  { elem with argType := .aclTensorList, tensorList := some tensors }

end MemSetTensorInfo

section Collect

variable (bin : OpKernelBin) (needAlign : Bool) (version : MemsetVersion)

/-- `CollectMemSetTensor` for a tensor. -/
def collectTensor (s : Collector) : Option Tensor → Collector
  | none => s
  | some t =>
    if t.onDevice then
      ⟨bindFirst (.bindTensor bin needAlign t) s.allIdx s.memSetValueCtx, s.allIdx + 1⟩
    else { s with allIdx := s.allIdx + 1 }

/-- `CollectMemSetTensor4DevPtr`. -/
def collectMemSetTensor4DevPtr (s : Collector) : Option (List (Option Tensor)) → Collector
  | none => s
  | some tensors => ⟨bindFirst (.bindList tensors) s.allIdx s.memSetValueCtx, s.allIdx + 1⟩

/-- `CollectMemSetTensor` for a list. -/
def collectList (s : Collector) : Option (List (Option Tensor)) → Collector
  | none => s
  | some tensors => tensors.foldl (collectTensor bin needAlign) s

/-- `CollectMemSetTensor` for an argument. -/
def collectArg (s : Collector) : OpArg → Collector
  | .aclTensor tensor => collectTensor bin needAlign s tensor
  | .aclTensorList tensors =>
    if version = .memsetV2 ∧ bin.hasDevPtrArg = true then collectMemSetTensor4DevPtr s tensors
    else collectList bin needAlign s tensors
  | _ => s

/-- `CollectMemSetTensor`. -/
def collectMemSetTensor (args : OpArgContext) (s : Collector) : Collector :=
  let s := args.outputs.foldl (collectArg bin needAlign version) s
  let s := args.workspace.foldl (collectArg bin needAlign version) s
  match args.outShape with
  | some t => collectTensor bin needAlign s (some t)
  | none => s

end Collect

/-- `MemsetOutputTensor`, up to the launch of the memset: `memSetValue_` has an entry for each
of the indices. -/
def memsetOutputTensor (bin : OpKernelBin) (soc : SocVersion) (args : OpArgContext)
    (indices : List Nat) : List MemSetTensorInfo :=
  let memSetValue := indices.map fun i => ({ argIdx := i } : MemSetTensorInfo)
  (collectMemSetTensor bin soc.needAlign soc.memsetVersion args
    ⟨memSetValue, bin.inputNum soc.memsetVersion args.inputs⟩).memSetValueCtx

/-! ## What an index is bound to -/

/-- What the collector assigns at an item. -/
def Item.bind (bin : OpKernelBin) (needAlign : Bool) (x : Item) (elem : MemSetTensorInfo) :
    MemSetTensorInfo :=
  match x with
  | .output t | .outShape t => if t.onDevice then elem.bindTensor bin needAlign t else elem
  | .list tensors => elem.bindList tensors
  | _ => elem

variable (bin : OpKernelBin) {k : Nat} {x : Item}

@[simp] theorem argIdx_bind (needAlign : Bool) (x : Item)
    (elem : MemSetTensorInfo) : (x.bind bin needAlign elem).argIdx = elem.argIdx := by
  unfold Item.bind
  split
  · split <;> rfl
  · split <;> rfl
  · rfl
  · rfl

/-- The item with the number `k`, if they are numbered from `start` on. -/
def numbered (start : Nat) (xs : List Item) (k : Nat) : Option Item :=
  if k < start then none else xs[k - start]?

theorem numbered_append (start : Nat) (xs ys : List Item) (k : Nat) : numbered start (xs ++ ys) k
      = (numbered start xs k).or (numbered (start + xs.length) ys k) := by
  unfold numbered
  by_cases hstart : k < start
  · rw [if_pos hstart, if_pos hstart, if_pos (by omega)]
    rfl
  · rw [if_neg hstart, if_neg hstart, getElem?_append]
    by_cases hxs : k - start < xs.length
    · rw [if_pos hxs, if_pos (by omega), getElem?_eq_getElem hxs]
      rfl
    · rw [if_neg hxs, if_neg (by omega), getElem?_eq_none (Nat.le_of_not_lt hxs), Nat.sub_sub]
      rfl

theorem numbered_singleton (start : Nat) (x : Item) (k : Nat) :
    numbered start [x] k = if start = k then some x else none := by
  unfold numbered
  by_cases hk : start = k
  · rw [if_neg (by omega), if_pos hk, ← hk, Nat.sub_self]
    rfl
  · rw [if_neg hk]
    split
    · rfl
    next => exact getElem?_eq_none (by rw [length_singleton]; omega)

theorem numbered_behind {start : Nat} {xs : List Item} (ys : List Item)
    (h : numbered start xs k = some x) : numbered (start + xs.length) ys k = none := by
  unfold numbered at h
  split at h
  · nomatch h
  · have := (List.getElem?_eq_some_iff.mp h).1
    exact if_pos (by omega)

/-- An entry after the items have been gone over. -/
def bindNumbered (bin : OpKernelBin) (needAlign : Bool) (start : Nat) (xs : List Item)
    (elem : MemSetTensorInfo) : MemSetTensorInfo :=
  (numbered start xs elem.argIdx).elim elem fun x => x.bind bin needAlign elem

/-- From `s` to `s'` these items are gone over. -/
structure Counts (bin : OpKernelBin) (needAlign : Bool) (s s' : Collector) (xs : List Item) :
    Prop where
  allIdx : s'.allIdx = s.allIdx + xs.length
  entries : (s.memSetValueCtx.map MemSetTensorInfo.argIdx).Nodup →
    s'.memSetValueCtx = s.memSetValueCtx.map (bindNumbered bin needAlign s.allIdx xs)

variable {bin : OpKernelBin} {needAlign : Bool} {version : MemsetVersion} {s s' s'' : Collector}
  {xs ys : List Item} {bind : MemSetTensorInfo → MemSetTensorInfo}

theorem argIdx_bindNumbered (start : Nat) (elem : MemSetTensorInfo) :
    (bindNumbered bin needAlign start xs elem).argIdx = elem.argIdx := by
  unfold bindNumbered
  cases numbered start xs elem.argIdx with
  | none => rfl
  | some x => exact argIdx_bind bin needAlign x elem

theorem Counts.nil : Counts bin needAlign s s [] := by
  refine ⟨rfl, fun _ => ?_⟩
  have hnone : bindNumbered bin needAlign s.allIdx [] = id := by
    funext elem
    unfold bindNumbered numbered
    split <;> rfl
  rw [hnone, map_id]

theorem bindNumbered_append (start : Nat) (elem : MemSetTensorInfo) :
    bindNumbered bin needAlign start (xs ++ ys) elem
      = bindNumbered bin needAlign (start + xs.length) ys
          (bindNumbered bin needAlign start xs elem) := by
  rw [bindNumbered.eq_1 bin needAlign (start + xs.length), argIdx_bindNumbered]
  unfold bindNumbered
  rw [numbered_append]
  cases hx : numbered start xs elem.argIdx with
  | none => rfl
  | some x =>
    rw [numbered_behind ys hx]
    rfl

theorem Counts.trans (h : Counts bin needAlign s s' xs) (h' : Counts bin needAlign s' s'' ys) :
    Counts bin needAlign s s'' (xs ++ ys) := by
  refine ⟨?_, fun hnodup => ?_⟩
  · rw [h'.allIdx, h.allIdx, length_append, Nat.add_assoc]
  · have hentries := h.entries hnodup
    have hidx : s'.memSetValueCtx.map MemSetTensorInfo.argIdx
        = s.memSetValueCtx.map MemSetTensorInfo.argIdx := by
      rw [hentries, map_map]
      exact map_congr_left fun elem _ => argIdx_bindNumbered _ elem
    rw [h'.entries (hidx ▸ hnodup), hentries, map_map, h.allIdx]
    exact map_congr_left fun elem _ => (bindNumbered_append _ elem).symm

theorem Counts.foldl {α : Type} {collect : Collector → α → Collector} {ofElem : α → List Item} :
    ∀ {elems : List α},
    (∀ s, ∀ x ∈ elems, Counts bin needAlign s (collect s x) (ofElem x)) →
    ∀ s, Counts bin needAlign s (elems.foldl collect s) (elems.flatMap ofElem)
  | [], _, _ => .nil
  | x :: _, hstep, s =>
    (hstep s x mem_cons_self).trans
      (Counts.foldl (fun s y hy => hstep s y (mem_cons_of_mem x hy)) _)

theorem bindFirst_eq :
    ∀ {es : List MemSetTensorInfo}, (es.map MemSetTensorInfo.argIdx).Nodup →
    bindFirst bind k es = es.map fun elem => if k = elem.argIdx then bind elem else elem
  | [], _ => rfl
  | elem :: es, hnodup => by
    obtain ⟨hnew, hrest⟩ := nodup_cons.mp hnodup
    rw [bindFirst, map_cons]
    split
    next hk =>
      have hother : es.map (fun elem => if k = elem.argIdx then bind elem else elem) = es := by
        rw [map_congr_left, map_id]
        intro elem' helem'
        exact if_neg fun hk' => hnew (mem_map.mpr ⟨elem', helem', hk'.symm.trans hk⟩)
      rw [hother]
    next => rw [bindFirst_eq hrest]

theorem Counts.one (hbind : ∀ elem, x.bind bin needAlign elem = bind elem) :
    Counts bin needAlign s ⟨bindFirst bind s.allIdx s.memSetValueCtx, s.allIdx + 1⟩ [x] := by
  refine ⟨rfl, fun hnodup => ?_⟩
  rw [bindFirst_eq hnodup]
  refine map_congr_left fun elem _ => ?_
  unfold bindNumbered
  rw [numbered_singleton]
  split
  · exact (hbind elem).symm
  · rfl

theorem Counts.skip (hbind : ∀ elem, x.bind bin needAlign elem = elem) :
    Counts bin needAlign s { s with allIdx := s.allIdx + 1 } [x] := by
  refine ⟨rfl, fun _ => ?_⟩
  have hid : bindNumbered bin needAlign s.allIdx [x] = id := by
    funext elem
    unfold bindNumbered
    rw [numbered_singleton]
    split
    · exact hbind elem
    · rfl
  rw [hid, map_id]

/-! ## The groups -/

theorem counts_tensor {t : Tensor} (hx : x = .output t ∨ x = .outShape t) (s : Collector) :
    Counts bin needAlign s (collectTensor bin needAlign s (some t)) [x] := by
  have hbind : ∀ elem, x.bind bin needAlign elem =
      if t.onDevice then elem.bindTensor bin needAlign t else elem := by
    intro elem
    rcases hx with rfl | rfl <;> rfl
  unfold collectTensor
  dsimp only
  split
  next hdevice => exact .one fun elem => (hbind elem).trans (if_pos hdevice)
  next hhost => exact .skip fun elem => (hbind elem).trans (if_neg hhost)

theorem counts_collectTensor (s : Collector) (tensor : Option Tensor) :
    Counts bin needAlign s (collectTensor bin needAlign s tensor) (Item.ofOutput tensor) := by
  cases tensor with
  | none => exact .nil
  | some t => exact counts_tensor (Or.inl rfl) s

/-- Whether a list is one argument to the collector. -/
def OpKernelBin.countsList (bin : OpKernelBin) (version : MemsetVersion) : Bool :=
  version = .memsetV2 ∧ bin.hasDevPtrArg = true

/-- The items that an argument has to the collector; a memset has none. -/
def Item.ofCounted (asList : Bool) : OpArg → List Item
  | .memsetWorkspace _ => []
  | arg => Item.ofArg asList Item.ofOutput arg

theorem counts_collectArg (s : Collector) (arg : OpArg) :
    Counts bin needAlign s (collectArg bin needAlign version s arg)
      (Item.ofCounted (bin.countsList version) arg) := by
  cases arg with
  | aclTensor tensor => exact counts_collectTensor s tensor
  | aclTensorList tensors =>
    cases tensors with
    | none =>
      unfold collectArg
      dsimp only
      split <;> exact .nil
    | some tensors =>
      unfold collectArg Item.ofCounted Item.ofArg Item.ofList OpKernelBin.countsList
      dsimp only
      by_cases hlist : version = .memsetV2 ∧ bin.hasDevPtrArg = true
      · rw [if_pos hlist, if_pos (decide_eq_true hlist)]
        exact .one fun _ => rfl
      · rw [if_neg hlist, if_neg (by simpa using hlist)]
        exact .foldl (fun s t _ => counts_collectTensor s t) s
  | memsetWorkspace _ | other => exact .nil

/-- The items of a group as the collector has them. -/
def countedItems (bin : OpKernelBin) (version : MemsetVersion) (group : List OpArg) : List Item :=
  group.flatMap (Item.ofCounted (bin.countsList version))

theorem counts_group (group : List OpArg) (s : Collector) :
    Counts bin needAlign s (group.foldl (collectArg bin needAlign version) s)
      (countedItems bin version group) := by
  unfold countedItems
  exact .foldl (fun s arg _ => counts_collectArg s arg) s

variable {soc : SocVersion} {args : OpArgContext} {indices : List Nat}

theorem counts_collectMemSetTensor (s : Collector) :
    Counts bin needAlign s (collectMemSetTensor bin needAlign version args s)
      (countedItems bin version args.outputs ++ (countedItems bin version args.workspace ++
        args.outShape.toList.map Item.outShape)) := by
  have houtShape : ∀ s, Counts bin needAlign s (match args.outShape with
      | some t => collectTensor bin needAlign s (some t)
      | none => s) (args.outShape.toList.map Item.outShape) := by
    intro s
    cases args.outShape with
    | none => exact .nil
    | some t => exact counts_tensor (Or.inr rfl) s
  exact (counts_group args.outputs s).trans ((counts_group args.workspace _).trans (houtShape _))

theorem memsetOutputTensor_eq (hdistinct : indices.Nodup) :
    memsetOutputTensor bin soc args indices = indices.map fun i =>
      bindNumbered bin soc.needAlign (bin.inputNum soc.memsetVersion args.inputs)
        (countedItems bin soc.memsetVersion args.outputs ++
          (countedItems bin soc.memsetVersion args.workspace ++
            args.outShape.toList.map Item.outShape)) { argIdx := i } := by
  have hidx : (indices.map fun i => ({ argIdx := i } : MemSetTensorInfo)).map
      MemSetTensorInfo.argIdx = indices := by
    rw [map_map]
    exact map_id indices
  have hentries : memsetOutputTensor bin soc args indices = _ :=
    (counts_collectMemSetTensor _).entries (hidx.symm ▸ hdistinct)
  rw [hentries, map_map]
  rfl

/-! ## What it should be bound to -/

/-- The entry of the launch that an index names is what is cleared. -/
def MemSetTensorInfo.BoundTo (elem : MemSetTensorInfo) : ArgAddr → Prop
  | .deviceArg tensor devAddr _ =>
    elem.argType = .aclTensor ∧ elem.tensor = tensor ∧ elem.tensorData = devAddr
  | .hostArg hostAddr _ t =>
    elem.argType = .aclTensor ∧ elem.tensor = some t ∧ elem.tensorData = hostAddr
  | .devicePtrArg tensors _ => elem.argType = .aclTensorList ∧ elem.tensorList = some tensors

instance (elem : MemSetTensorInfo) (arg : ArgAddr) : Decidable (elem.BoundTo arg) := by
  cases arg <;> exact inferInstanceAs (Decidable (_ ∧ _))

def MemSetTensorInfo.Unbound (elem : MemSetTensorInfo) : Prop :=
  elem.tensor = none ∧ elem.tensorList = none

/-- The tensor lies on the host. -/
def ArgAddr.onHost : ArgAddr → Bool
  | .deviceArg tensor _ _ => tensor.any fun t => !t.onDevice
  | .hostArg _ _ _ => true
  | .devicePtrArg _ _ => false

/-- Every index that the launch has an argument for is bound to that argument. -/
def TargetsBound (bin : OpKernelBin) (soc : SocVersion) (args : OpArgContext)
    (indices : List Nat) : Prop :=
  ∀ elem ∈ memsetOutputTensor bin soc args indices,
    ∀ arg ∈ (launchArgInfo bin args).allArg[elem.argIdx]?, elem.BoundTo arg

instance (bin : OpKernelBin) (soc : SocVersion) (args : OpArgContext) (indices : List Nat) :
    Decidable (TargetsBound bin soc args indices) := by
  unfold TargetsBound
  infer_instance

/-- The entries of the launch that are inputs, and those that are inputs or outputs. -/
def inputArgs (bin : OpKernelBin) (args : OpArgContext) : LaunchArgInfo :=
  args.inputs.foldl (appendInputLaunchArg bin) init

def outputArgs (bin : OpKernelBin) (args : OpArgContext) : LaunchArgInfo :=
  args.outputs.foldl (appendLaunchArg bin) (inputArgs bin args)

/-- Inputs and outputs have the numbers of the launch: the inputs are counted as they are
launched, and a list of outputs is one argument for both or for neither. -/
structure FrontAlike (bin : OpKernelBin) (soc : SocVersion) (args : OpArgContext) : Prop where
  inputs : bin.inputNum soc.memsetVersion args.inputs = (inputArgs bin args).allArg.length
  lists : bin.hasDevPtrArg = true → soc.memsetVersion = .memsetV1 →
    ∀ tensors, .aclTensorList (some tensors) ∉ args.outputs

/-- So have the arguments behind them: a list of workspaces is several arguments for both, and
the tensor for output shapes need not be in front of workspaces for the one and behind them
for the other. -/
structure BackAlike (bin : OpKernelBin) (soc : SocVersion) (args : OpArgContext) : Prop where
  lists : bin.hasDevPtrArg = true → soc.memsetVersion = .memsetV2 →
    ∀ tensors, .aclTensorList (some tensors) ∉ args.workspace
  memsets : ∀ tensors, .memsetWorkspace tensors ∉ args.workspace
  order : args.outShape = none ∨ ∀ arg ∈ args.workspace, ∀ t, some t ∉ arg.elements false

theorem countedItems_outputs (h : FrontAlike bin soc args) :
    countedItems bin soc.memsetVersion args.outputs
      = args.outputs.flatMap (Item.ofArg bin.hasDevPtrArg Item.ofOutput) := by
  refine flatMap_congr fun arg harg => ?_
  cases arg with
  | aclTensorList tensors =>
    cases tensors with
    | none => rfl
    | some tensors =>
      have hasList : bin.countsList soc.memsetVersion = bin.hasDevPtrArg := by
        unfold OpKernelBin.countsList
        cases hptr : bin.hasDevPtrArg with
        | false => simp
        | true =>
          cases hversion : soc.memsetVersion with
          | memsetV1 => exact absurd harg (h.lists hptr hversion tensors)
          | memsetV2 => rfl
      rw [hasList]
      rfl
  | memsetWorkspace tensors => exact absurd rfl (args.outputs_plain _ harg tensors)
  | aclTensor _ => rfl
  | other => rfl

theorem countedItems_workspace (h : BackAlike bin soc args) :
    countedItems bin soc.memsetVersion args.workspace
      = args.workspace.flatMap (Item.ofArg false Item.ofOutput) := by
  refine flatMap_congr fun arg harg => ?_
  cases arg with
  | aclTensorList tensors =>
    cases tensors with
    | none => rfl
    | some tensors =>
      have hasList : bin.countsList soc.memsetVersion = false :=
        decide_eq_false fun ⟨hversion, hptr⟩ => h.lists hptr hversion tensors harg
      rw [hasList]
      rfl
  | memsetWorkspace tensors => exact absurd harg (h.memsets tensors)
  | aclTensor _ => rfl
  | other => rfl

theorem workspace_outShape (h : BackAlike bin soc args) :
    args.workspace.flatMap (Item.ofArg false Item.ofOutput)
        ++ args.outShape.toList.map Item.outShape
      = args.outShape.toList.map Item.outShape
        ++ args.workspace.flatMap (Item.ofArg false Item.ofOutput) := by
  rcases h.order with hnone | hempty
  · rw [hnone]
    exact append_nil _
  · have hnil : args.workspace.flatMap (Item.ofArg false Item.ofOutput) = [] := by
      refine flatMap_eq_nil_iff.mpr fun arg harg => ?_
      refine eq_nil_iff_forall_not_mem.mpr fun x hx => ?_
      rcases Item.mem_ofArg.mp hx with ⟨tensor, htensor, hx⟩ | ⟨_, hfalse, -⟩ | ⟨elem, helem, -⟩
      · obtain ⟨t, rfl, -⟩ := Item.mem_ofOutput.mp hx
        exact hempty arg harg t htensor
      · nomatch hfalse
      · cases arg with
        | memsetWorkspace tensors => exact h.memsets tensors harg
        | aclTensor _ | aclTensorList _ | other => nomatch helem
    rw [hnil, append_nil]
    rfl

/-- The items that are cleared: all but inputs and memsets. -/
def Item.Cleared (x : Item) : Prop :=
  (∃ t, x = .output t ∨ x = .outShape t) ∨ ∃ tensors, x = .list tensors

theorem bind_cleared (hx : x.Cleared) (k : Nat) :
    if (x.entry bin).onHost then (x.bind bin needAlign { argIdx := k }).Unbound
    else (x.bind bin needAlign { argIdx := k }).BoundTo (x.entry bin) := by
  have htensor : ∀ t : Tensor, ∀ isOutShape, x.entry bin = .deviceArg (some t) t.data isOutShape →
      (∀ elem, x.bind bin needAlign elem =
        if t.onDevice then elem.bindTensor bin needAlign t else elem) →
      if (x.entry bin).onHost then (x.bind bin needAlign { argIdx := k }).Unbound
      else (x.bind bin needAlign { argIdx := k }).BoundTo (x.entry bin) := by
    intro t isOutShape hentry hbind
    rw [hentry, hbind]
    cases hdevice : t.onDevice with
    | true =>
      rw [if_neg (by simp [ArgAddr.onHost, hdevice]), if_pos rfl]
      exact ⟨rfl, rfl, rfl⟩
    | false =>
      rw [if_pos (by simp [ArgAddr.onHost, hdevice]), if_neg (by decide)]
      exact ⟨rfl, rfl⟩
  rcases hx with ⟨t, rfl | rfl⟩ | ⟨tensors, rfl⟩
  · exact htensor t false rfl fun _ => rfl
  · exact htensor t true rfl fun _ => rfl
  · exact ⟨rfl, rfl⟩

theorem cleared_ofArg {asList : Bool} {arg : OpArg}
    (hplain : ∀ tensors, arg ≠ .memsetWorkspace tensors)
    (hx : x ∈ Item.ofArg asList Item.ofOutput arg) : x.Cleared := by
  rcases Item.mem_ofArg.mp hx with ⟨tensor, -, hx⟩ | ⟨tensors, -, -, rfl⟩ | ⟨elem, helem, -⟩
  · obtain ⟨t, -, rfl⟩ := Item.mem_ofOutput.mp hx
    exact Or.inl ⟨t, Or.inl rfl⟩
  · exact Or.inr ⟨tensors, rfl⟩
  · cases arg with
    | memsetWorkspace tensors => exact absurd rfl (hplain tensors)
    | aclTensor _ | aclTensorList _ | other => nomatch helem

/-! ## The numbers of the launch -/

/-- The items of the inputs, of the outputs, and of what is behind them. -/
def inputItems (bin : OpKernelBin) (args : OpArgContext) : List Item :=
  args.inputs.flatMap (Item.ofArg bin.hasDevPtrArg (Item.ofInput bin))

def outputItems (bin : OpKernelBin) (args : OpArgContext) : List Item :=
  args.outputs.flatMap (Item.ofArg bin.hasDevPtrArg Item.ofOutput)

def backItems (args : OpArgContext) : List Item :=
  args.outShape.toList.map Item.outShape ++ args.workspace.flatMap (Item.ofArg false Item.ofOutput)

theorem allArg_eq (args : OpArgContext) : (launchArgInfo bin args).allArg
    = (inputItems bin args ++ (outputItems bin args ++ backItems args)).map (Item.entry bin) := by
  rw [(described_launchArgInfo bin args).1]
  unfold items inputItems outputItems backItems
  simp only [append_assoc]

theorem length_inputArgs (args : OpArgContext) :
    (inputArgs bin args).allArg.length = (inputItems bin args).length := by
  have hinputs : ∀ info, Collects bin info (args.inputs.foldl (appendInputLaunchArg bin) info)
      (args.inputs.flatMap (Item.ofArg bin.hasDevPtrArg (Item.ofInput bin))) :=
    .foldl fun info x hx => collects_appendInputLaunchArg info (args.inputs_plain x hx)
  unfold inputArgs inputItems
  rw [(hinputs init).allArg, length_append, length_map]
  exact Nat.zero_add _

theorem length_outputArgs (args : OpArgContext) : (outputArgs bin args).allArg.length
      = (inputItems bin args).length + (outputItems bin args).length := by
  have houtputs : ∀ info, Collects bin info (args.outputs.foldl (appendLaunchArg bin) info)
      (args.outputs.flatMap (Item.ofArg bin.hasDevPtrArg Item.ofOutput)) :=
    .foldl fun info x hx => collects_appendLaunchArg info (args.outputs_plain x hx)
  unfold outputArgs outputItems
  rw [(houtputs _).allArg, length_append, length_map, length_inputArgs]

/-- The number `k` is that of the same item for both. -/
theorem numbered_eq (hfront : FrontAlike bin soc args)
    (hk : k < (outputArgs bin args).allArg.length ∨ BackAlike bin soc args) :
    numbered (bin.inputNum soc.memsetVersion args.inputs)
      (countedItems bin soc.memsetVersion args.outputs ++
        (countedItems bin soc.memsetVersion args.workspace ++
          args.outShape.toList.map Item.outShape)) k
      = numbered (inputItems bin args).length (outputItems bin args ++ backItems args) k := by
  rw [hfront.inputs, length_inputArgs, countedItems_outputs hfront]
  rcases hk with hk | hback
  · rw [length_outputArgs] at hk
    unfold numbered
    split
    · rfl
    next hstart =>
      have hlt : k - (inputItems bin args).length < (outputItems bin args).length := by omega
      rw [getElem?_append_left hlt]
      exact getElem?_append_left hlt
  · rw [countedItems_workspace hback, workspace_outShape hback]
    rfl

theorem cleared_behind (hx : (outputItems bin args ++ backItems args)[k]? = some x)
    (hk : k < (outputItems bin args).length ∨ BackAlike bin soc args) : x.Cleared := by
  have houtput : x ∈ outputItems bin args → x.Cleared := by
    intro hmem
    obtain ⟨arg, harg, hx⟩ := mem_flatMap.mp hmem
    exact cleared_ofArg (args.outputs_plain arg harg) hx
  rcases hk with hk | hback
  · rw [getElem?_append_left hk] at hx
    exact houtput (mem_of_getElem? hx)
  · rcases mem_append.mp (mem_of_getElem? hx) with hmem | hmem
    · exact houtput hmem
    · rcases mem_append.mp hmem with hmem | hmem
      · obtain ⟨t, -, rfl⟩ := mem_map.mp hmem
        exact Or.inl ⟨t, Or.inr rfl⟩
      · obtain ⟨arg, harg, hx⟩ := mem_flatMap.mp hmem
        exact cleared_ofArg (fun tensors htensors => hback.memsets tensors (htensors ▸ harg)) hx

/-- Each index has its entry. That of an input or of a tensor on the host has nothing; that of
any other argument has what the launch has there, where both number it alike. -/
theorem memset_targets (hdistinct : indices.Nodup) (hfront : FrontAlike bin soc args) :
    (memsetOutputTensor bin soc args indices).map MemSetTensorInfo.argIdx = indices ∧
    ∀ elem ∈ memsetOutputTensor bin soc args indices,
      ∀ arg, (launchArgInfo bin args).allArg[elem.argIdx]? = some arg →
        (elem.argIdx < (inputArgs bin args).allArg.length → elem.Unbound) ∧
        ((inputArgs bin args).allArg.length ≤ elem.argIdx →
          elem.argIdx < (outputArgs bin args).allArg.length ∨ BackAlike bin soc args →
          if arg.onHost then elem.Unbound else elem.BoundTo arg) := by
  rw [memsetOutputTensor_eq hdistinct]
  refine ⟨?_, fun elem helem arg harg => ?_⟩
  · rw [map_map]
    refine (map_congr_left fun i _ => ?_).trans (map_id indices)
    exact argIdx_bindNumbered _ _
  obtain ⟨i, -, rfl⟩ := mem_map.mp helem
  rw [argIdx_bindNumbered, length_inputArgs] at *
  dsimp only at *
  rw [allArg_eq] at harg
  refine ⟨fun hinput => ?_, fun hbehind hk => ?_⟩
  · -- no argument has the number of an input
    have hnone : numbered (bin.inputNum soc.memsetVersion args.inputs)
        (countedItems bin soc.memsetVersion args.outputs ++
          (countedItems bin soc.memsetVersion args.workspace ++
            args.outShape.toList.map Item.outShape)) i = none := by
      rw [hfront.inputs, length_inputArgs]
      exact if_pos hinput
    unfold bindNumbered
    rw [hnone]
    exact ⟨rfl, rfl⟩
  · rw [getElem?_map, getElem?_append_right hbehind, Option.map_eq_some_iff] at harg
    obtain ⟨x, hx, rfl⟩ := harg
    have hnumber := (numbered_eq hfront hk).trans ((if_neg (Nat.not_lt_of_le hbehind)).trans hx)
    have hcleared : x.Cleared := by
      refine cleared_behind hx (hk.imp_left fun hlt => ?_)
      rw [length_outputArgs] at hlt
      omega
    unfold bindNumbered
    rw [hnumber]
    exact bind_cleared hcleared i

/-- A scalar on the device or on the host. -/
def scalarTensor (onDevice : Bool) : Tensor := ⟨onDevice, 1, .DT_FLOAT, [], 16, 4⟩

/-- Two inputs, one of them on the host, two outputs, one of them null, and a workspace. -/
def clearedArgs : OpArgContext where
  inputs := [.aclTensor (some (scalarTensor true)), .aclTensor (some (scalarTensor false))]
  outputs := [.aclTensor none, .aclTensor (some (scalarTensor true))]
  outShape := none
  workspace := [.aclTensorList (some [some (scalarTensor true)])]
  inputs_plain := by simp
  outputs_plain := by simp

theorem memset_targets_cleared :
    (memsetOutputTensor ⟨false, false, 0, fun _ => 4⟩ .other clearedArgs [2, 3]).map
        MemSetTensorInfo.argIdx = [2, 3] ∧
    ∀ elem ∈ memsetOutputTensor ⟨false, false, 0, fun _ => 4⟩ .other clearedArgs [2, 3],
      ∀ arg, (launchArgInfo ⟨false, false, 0, fun _ => 4⟩ clearedArgs).allArg[elem.argIdx]?
          = some arg →
        (elem.argIdx < (inputArgs ⟨false, false, 0, fun _ => 4⟩ clearedArgs).allArg.length →
          elem.Unbound) ∧
        ((inputArgs ⟨false, false, 0, fun _ => 4⟩ clearedArgs).allArg.length ≤ elem.argIdx →
          elem.argIdx < (outputArgs ⟨false, false, 0, fun _ => 4⟩ clearedArgs).allArg.length ∨
            BackAlike ⟨false, false, 0, fun _ => 4⟩ .other clearedArgs →
          if arg.onHost then elem.Unbound else elem.BoundTo arg) :=
  memset_targets (by decide) ⟨by decide, fun hptr => nomatch hptr⟩

/-! ## Where it is bound to something else -/

/-- Arguments for which the entry is not bound to the tensor of its index, one of each kind. -/
theorem targets_not_bound :
    -- an input
    ¬ TargetsBound ⟨false, false, 0, fun _ => 4⟩ .ascend910B
      ⟨[.aclTensor (some (scalarTensor true))], [], none, [], by simp, by simp⟩ [0] ∧
    -- an output on the host
    ¬ TargetsBound ⟨false, false, 0, fun _ => 4⟩ .ascend910B
      ⟨[], [.aclTensor (some (scalarTensor false))], none, [], by simp, by simp⟩ [0] ∧
    -- an index that is named twice
    ¬ TargetsBound ⟨false, false, 0, fun _ => 4⟩ .ascend910B
      ⟨[], [.aclTensor (some (scalarTensor true))], none, [], by simp, by simp⟩ [0, 0] ∧
    -- a null input with a placeholder
    ¬ TargetsBound ⟨true, false, 0, fun _ => 4⟩ .ascend910B
      ⟨[.aclTensor none], [.aclTensor (some (scalarTensor true))], none, [], by simp, by simp⟩
      [1] ∧
    -- a list of outputs that is one argument of the launch
    ¬ TargetsBound ⟨false, true, 0, fun _ => 4⟩ .ascend910B
      ⟨[], [.aclTensorList (some [some (scalarTensor true)])], none, [], by simp, by simp⟩ [0] ∧
    -- a list of workspaces that is several
    ¬ TargetsBound ⟨false, true, 0, fun _ => 4⟩ .ascend91095
      ⟨[], [], none, [.aclTensorList (some [some (scalarTensor true)])], by simp, by simp⟩ [0] ∧
    -- a vector for a memset kernel
    ¬ TargetsBound ⟨false, false, 0, fun _ => 4⟩ .ascend910B
      ⟨[], [], none, [.memsetWorkspace [(8, some (scalarTensor true))]], by simp, by simp⟩ [0] ∧
    -- a workspace behind the tensor for output shapes
    ¬ TargetsBound ⟨false, false, 0, fun _ => 4⟩ .ascend910B
      ⟨[], [], some (scalarTensor true), [.aclTensor (some ⟨true, 8, .DT_FLOAT, [8], 32, 32⟩)],
        by simp, by simp⟩ [0] := by
  decide

end OpBase.LaunchArg
