import OpBase.Aicpu.KernelCache
import OpBase.Aicpu.KernelContext

/-!
# Contexts out of the cache

`aicpu_common/context/common/cpu_kernel_cache.cc`: `RunKernel` and
`RunCpuKernelWithBlock` look a context up under the kernel id of the call, make one if
there is none, put the tensors of the call into it and hand it to the kernel. The two
differ in the attributes they add, in the device and in the share of the workspace;
`Recipe` has what sets them apart. A context from the cache keeps what it was made
with: only its tensors are updated.

The contexts are kept in the order they were made in, and the pointer to one is its
place. `makers` remembers what each was made with; no function reads it.

> `used_as_fresh_iff`: in any run, a context that is handed to a kernel is as one made
> afresh would be, exactly if it is one, or if the call that made it asks for the same
> attributes, device and workspace and each shape the call does not bring is still the
> one of the node definition.
-/

namespace OpBase.Aicpu

open List OpBase.Lib
open Option (bind_eq_some_iff getD_none map_eq_some_iff or_none some.inj)
open Prod (mk.inj)

/-! ## What the cache holds -/

namespace KernelCache

variable {T : Type} {c : KernelCache T} {V V' : UInt64 → T → Prop} {key : UInt64}

/-- The cache works, and what it has under an id satisfies `V`. -/
def Caches (c : KernelCache T) (V : UInt64 → T → Prop) : Prop :=
  ∃ h, TrackedCache.CacheInv ⟨c, h⟩ ∧ ∀ k v, h.value k = some v → V k v

theorem caches_init (sessFlag : Bool) (capacity : Nat) (V : UInt64 → T → Prop) :
    (init sessFlag capacity).Caches V :=
  ⟨{}, TrackedCache.inv_init sessFlag capacity, fun _ _ h => by cases h⟩

theorem Caches.mono (h : c.Caches V) (hV : ∀ k v, V k v → V' k v) : c.Caches V' := by
  obtain ⟨hist, hinv, hall⟩ := h
  exact ⟨hist, hinv, fun k v hv => hV k v (hall k v hv)⟩

theorem Caches.get (h : c.Caches V) (key : UInt64) :
    ∃ c' found, c.getCache key = some (c', found) ∧ c'.Caches V ∧
      ∀ v, found = some v → V key v := by
  obtain ⟨hist, hinv, hall⟩ := h
  obtain ⟨c', hcall, hdoes⟩ := hinv.does (.get key)
  obtain ⟨⟨c'', found⟩, hget, rfl⟩ := map_eq_some_iff.mp hcall
  have hfound : found = hist.value key := by
    have hhit := hinv.keeps.hit key
    rw [hget] at hhit
    exact some.inj hhit
  refine ⟨c'', found, hget, ⟨_, hinv.does_after hdoes, fun k v hv => hall k v ?_⟩, fun v hv => ?_⟩
  · change (if _ then none else hist.value k) = some v at hv
    split at hv
    · cases hv
    · exact hv
  · exact hall key v (hfound ▸ hv)

theorem Caches.set (h : c.Caches V) {value : T} (hvalue : V key value) :
    ∃ c', c.setCache key value = some c' ∧ c'.Caches V := by
  obtain ⟨hist, hinv, hall⟩ := h
  obtain ⟨c', hcall, hdoes⟩ := hinv.does (.set key value)
  refine ⟨c', hcall, _, hinv.does_after hdoes, fun k v hv => ?_⟩
  change (if k = key then some value else if _ then none else hist.value k) = some v at hv
  split at hv
  next hk => exact hk ▸ some.inj hv ▸ hvalue
  next =>
    split at hv
    · cases hv
    · exact hall k v hv

end KernelCache

/-! ## What sets the two entry points apart -/

/-- Whether a context is looked up, and what a new one is made with. `none` for the
workspace: it is divided among no blocks. -/
structure Recipe where
  lookUp : Bool
  added : List (String × AttrValue)
  deviceType : DeviceType
  workspace : Option (UInt64 × UInt64)

/-- `GetCpuKernelContext` -/
def kernelRecipe (msg : ExtInfoMsg) : Recipe where
  lookUp := msg.hasSessInfo
  added := [("wait_type", .int (Int64.ofNat msg.waitType.toNat)),
    ("wait_id", .int (Int64.ofNat msg.waitId.toNat))]
  deviceType := if msg.devicetypeHostFlag then .host else .device
  workspace :=
    some (if 0 < msg.workspaceSize then (msg.workspaceSize, msg.workspaceAddr) else (0, 0))

structure BlkDimInfo where
  blockNum : UInt32
  blockId : UInt32

/-- The share of a block; the last one gets what is left. -/
def blockWorkspace (blk : BlkDimInfo) (msg : ExtInfoMsg) : Option (UInt64 × UInt64) :=
  if 0 < msg.workspaceSize then
    if blk.blockNum = 0 then none
    else
      let perUnit := msg.workspaceSize / blk.blockNum.toUInt64
      let startPos := perUnit * blk.blockId.toUInt64
      let blockWorkspaceSize :=
        if blk.blockId < blk.blockNum - 1 then perUnit
        else msg.workspaceSize - perUnit * (blk.blockNum - 1).toUInt64
      some (blockWorkspaceSize, msg.workspaceAddr + startPos)
  else some (0, 0)

/-- `GetCpuKernelContextWithBlock` -/
def blockRecipe (blk : BlkDimInfo) (msg : ExtInfoMsg) : Recipe where
  lookUp := msg.hasSessInfo && blk.blockNum == 1
  added := if blk.blockNum = 1 then [] else
    [("block_num", .int (Int64.ofNat blk.blockNum.toNat)),
      ("block_id", .int (Int64.ofNat blk.blockId.toNat))]
  deviceType := .device
  workspace := blockWorkspace blk msg

/-- `Init` of a new context, on the node definition with the attributes added. -/
def create (r : Recipe) (nodeDef : NodeDef) : Option CpuKernelContext :=
  r.workspace.map fun workspace =>
    { opType := nodeDef.opType
      inputs := nodeDef.inputs
      outputs := nodeDef.outputs
      attrs := r.added.foldl (fun attrs a => addAttrs attrs a.1 a.2) nodeDef.attrs
      deviceType := r.deviceType
      workspaceSize := workspace.1
      workspaceAddr := workspace.2 }

/-! ## The calls -/

/-- `CpuKernelCache`, with the contexts it points at. -/
structure CacheState where
  cache : KernelCache Nat
  contexts : List CpuKernelContext
  makers : List (Recipe × List Byte)

/-- The parameters of a call, and what the kernel leaves of each tensor. -/
structure Launch where
  mem : Mem
  paramHead : Nat
  fuel : Nat
  leavesInput : Nat → CpuTensor → CpuTensor
  leavesOutput : Nat → CpuTensor → CpuTensor

inductive Call
  | runKernel (l : Launch)
  | runCpuKernelWithBlock (l : Launch) (blkdimInfo : BlkDimInfo)

section Run

variable (A : Adapter) (parseFromString : List Byte → Option NodeDef)

/-- `ParseIoAddr`, then `ParseExtMsg`. -/
def parseParams (l : Launch) : Option (Except KernelStatus Params) :=
  match parseIoAddr A l.mem l.paramHead with
  | .error e => some (.error e)
  | .ok (ioAddrs, nodeDef, nodeDefLen) =>
    match parseExtMsg A l.mem l.paramHead l.fuel {} with
    | none => none
    | some (.error e) => some (.error e)
    | some (.ok msg) => some (.ok
        { mem := l.mem
          ioAddrs := ioAddrs
          nodeDef := (List.range nodeDefLen).map fun i => l.mem (nodeDef + i)
          msg := msg })

/-- The lookup, with what it does to the cache. -/
def findContext (s : CacheState) (r : Recipe) (kernelId : UInt64) :
    Option (KernelCache Nat × Option Nat) :=
  if r.lookUp then s.cache.getCache kernelId else some (s.cache, none)

/-- A new context is cached if the call has session info. -/
def cacheContext (cache : KernelCache Nat) (msg : ExtInfoMsg) (id : Nat) :
    Option (KernelCache Nat) :=
  if msg.hasSessInfo then cache.setCache msg.kernelId id else some cache

/-- The context is cached before it has its workspace, but all the cache has of it is the
pointer. -/
def makeContext (s : CacheState) (cache : KernelCache Nat) (p : Params) (r : Recipe) :
    Option (CacheState × Option Nat) :=
  match parseFromString p.nodeDef with
  | none => some ({ s with cache := cache }, none)
  | some nodeDef => do
    let cache ← cacheContext cache p.msg s.contexts.length
    let ctx ← create r nodeDef
    some (⟨cache, s.contexts ++ [ctx], s.makers ++ [(r, p.nodeDef)]⟩, some s.contexts.length)

def getContext (s : CacheState) (p : Params) (r : Recipe) : Option (CacheState × Option Nat) := do
  let (cache, found) ← findContext s r p.msg.kernelId
  match found with
  | some id => some ({ s with cache := cache }, some id)
  | none => makeContext parseFromString s cache p r

def getCpuKernelContext (s : CacheState) (p : Params) : Option (CacheState × Option Nat) :=
  getContext parseFromString s p (kernelRecipe p.msg)

def getCpuKernelContextWithBlock (blkdimInfo : BlkDimInfo) (s : CacheState) (p : Params) :
    Option (CacheState × Option Nat) :=
  getContext parseFromString s p (blockRecipe blkdimInfo p.msg)

/-- A context as the kernel leaves it. -/
def Launch.leaves (l : Launch) (ctx : CpuKernelContext) : CpuKernelContext :=
  { ctx with
    inputs := ctx.inputs.mapIdx l.leavesInput
    outputs := ctx.outputs.mapIdx l.leavesOutput }

/-- `UpdateTensor` and the kernel, on the context the pointer leads to. The second
component is the context the kernel was handed. -/
def updateAndRun (l : Launch) (p : Params) (s : CacheState) (id : Nat) :
    Option (CacheState × Option CpuKernelContext) := do
  let ctx ← s.contexts[id]?
  let (ctx, ok) ← updateTensor A p ctx
  if ok then some ({ s with contexts := s.contexts.set id (l.leaves ctx) }, some ctx)
  else some ({ s with contexts := s.contexts.set id ctx }, none)

def runWith (get : CacheState → Params → Option (CacheState × Option Nat)) (s : CacheState)
    (l : Launch) : Option (CacheState × Option CpuKernelContext) :=
  match parseParams A l with
  | none => none
  | some (.error _) => some (s, none)
  | some (.ok p) => do
    let (s, ctx) ← get s p
    match ctx with
    | none => some (s, none)
    | some id => updateAndRun A l p s id

def runKernel (s : CacheState) (l : Launch) : Option (CacheState × Option CpuKernelContext) :=
  runWith A (getCpuKernelContext parseFromString) s l

def runCpuKernelWithBlock (s : CacheState) (l : Launch) (blkdimInfo : BlkDimInfo) :
    Option (CacheState × Option CpuKernelContext) :=
  runWith A (getCpuKernelContextWithBlock parseFromString blkdimInfo) s l

def runCall (s : CacheState) : Call → Option (CacheState × Option CpuKernelContext)
  | .runKernel l => runKernel A parseFromString s l
  | .runCpuKernelWithBlock l blkdimInfo => runCpuKernelWithBlock A parseFromString s l blkdimInfo

def callStep (s : CacheState) (c : Call) : Option CacheState :=
  (runCall A parseFromString s c).map Prod.fst

def CacheState.init (sessFlag : Bool) (capacity : Nat) : CacheState :=
  ⟨KernelCache.init sessFlag capacity, [], []⟩

end Run

/-! ## As fresh -/

/-- The context has what `fresh` has, but the addresses of the call in its tensors, and
the shapes of the call where it brings any. -/
structure AsFresh (A : Adapter) (p : Params) (fresh ctx : CpuKernelContext) : Prop where
  attrs : ctx.attrs = fresh.attrs
  deviceType : ctx.deviceType = fresh.deviceType
  workspaceSize : ctx.workspaceSize = fresh.workspaceSize
  workspaceAddr : ctx.workspaceAddr = fresh.workspaceAddr
  inputs : ∀ i t, fresh.inputs[i]? = some t → ∃ t', ctx.inputs[i]? = some t' ∧
    t'.data = inputData p i ∧ t'.dims = (inputDims A p i).getD t.dims
  outputs : ∀ i t, fresh.outputs[i]? = some t → ∃ t', ctx.outputs[i]? = some t' ∧
    t'.data = outputData p fresh.inputs.length i ∧ t'.dims = (outputDims A p i).getD t.dims

/-- What a cached context needs for a later call: made with the same attributes beside
those of the node definition, the same device and workspace, and no shape has changed
that the call does not bring. -/
structure StillFits (A : Adapter) (p : Params) (nodeDef : NodeDef) (made now : Recipe)
    (ctx : CpuKernelContext) : Prop where
  added : ∀ name, nodeDef.attrs name = none → made.added.lookup name = now.added.lookup name
  deviceType : made.deviceType = now.deviceType
  workspace : made.workspace = now.workspace
  inputs : ∀ (i : Nat) (t t' : CpuTensor), nodeDef.inputs[i]? = some t →
    ctx.inputs[i]? = some t' → inputDims A p i = none → t'.dims = t.dims
  outputs : ∀ (i : Nat) (t t' : CpuTensor), nodeDef.outputs[i]? = some t →
    ctx.outputs[i]? = some t' → outputDims A p i = none → t'.dims = t.dims

def Call.launch : Call → Launch
  | .runKernel l => l
  | .runCpuKernelWithBlock l _ => l

def Call.recipe : Call → ExtInfoMsg → Recipe
  | .runKernel _ => kernelRecipe
  | .runCpuKernelWithBlock _ blkdimInfo => blockRecipe blkdimInfo

section Fresh

variable (A : Adapter) (parseFromString : List Byte → Option NodeDef)

/-- The context a call was handed is as one made afresh from its parameters. -/
def UsedAsFresh (c : Call) (ctx : CpuKernelContext) : Prop :=
  ∃ p nodeDef fresh, parseParams A c.launch = some (.ok p) ∧
    parseFromString p.nodeDef = some nodeDef ∧ create (c.recipe p.msg) nodeDef = some fresh ∧
    AsFresh A p fresh ctx

/-- If the call finds a context in the cache, it still fits. -/
def Meets (s : CacheState) (c : Call) : Prop :=
  ∀ p cache id made ctx nodeDef, parseParams A c.launch = some (.ok p) →
    findContext s (c.recipe p.msg) p.msg.kernelId = some (cache, some id) →
    s.makers[id]? = some made → s.contexts[id]? = some ctx →
    parseFromString p.nodeDef = some nodeDef → StillFits A p nodeDef made.1 (c.recipe p.msg) ctx

end Fresh

section Spec

variable {A : Adapter} {parseFromString : List Byte → Option NodeDef}

/-! ### Attributes -/

theorem addAttrs_apply (attrs : String → Option AttrValue) (name : String) (value : AttrValue)
    (n : String) :
    addAttrs attrs name value n = (attrs n).or (if n = name then some value else none) := by
  unfold addAttrs
  by_cases hn : n = name
  · subst hn
    rw [if_pos rfl]
    cases hat : attrs n with
    | none => simp
    | some v => simp [hat]
  · rw [if_neg hn, or_none]
    split
    · rfl
    · rw [Function.update_of_ne hn]

theorem foldl_addAttrs_apply (name : String) :
    ∀ (added : List (String × AttrValue)) (attrs : String → Option AttrValue),
      added.foldl (fun attrs a => addAttrs attrs a.1 a.2) attrs name
        = (attrs name).or (added.lookup name)
  | [], attrs => by rw [lookup_nil, or_none, foldl_nil]
  | (n, v) :: added, attrs => by
    rw [foldl_cons, foldl_addAttrs_apply name added, addAttrs_apply, Option.or_assoc, lookup_cons]
    by_cases hn : name = n
    · subst hn
      simp
    · rw [if_neg hn, beq_false_of_ne hn, Option.none_or]

theorem foldl_addAttrs_eq_iff {attrs : String → Option AttrValue}
    {added added' : List (String × AttrValue)} :
    added.foldl (fun attrs a => addAttrs attrs a.1 a.2) attrs
        = added'.foldl (fun attrs a => addAttrs attrs a.1 a.2) attrs ↔
      ∀ name, attrs name = none → added.lookup name = added'.lookup name := by
  rw [funext_iff]
  refine forall_congr' fun name => ?_
  rw [foldl_addAttrs_apply, foldl_addAttrs_apply]
  cases attrs name with
  | none => simp
  | some v => simp

/-! ### The contexts -/

/-- What no update of a context changes. -/
structure SameMake (ctx₀ ctx : CpuKernelContext) : Prop where
  attrs : ctx.attrs = ctx₀.attrs
  deviceType : ctx.deviceType = ctx₀.deviceType
  workspaceSize : ctx.workspaceSize = ctx₀.workspaceSize
  workspaceAddr : ctx.workspaceAddr = ctx₀.workspaceAddr
  inputs : ctx.inputs.length = ctx₀.inputs.length
  outputs : ctx.outputs.length = ctx₀.outputs.length

theorem SameMake.trans {a b c : CpuKernelContext} (h : SameMake a b) (h' : SameMake b c) :
    SameMake a c :=
  ⟨h'.attrs.trans h.attrs, h'.deviceType.trans h.deviceType,
    h'.workspaceSize.trans h.workspaceSize, h'.workspaceAddr.trans h.workspaceAddr,
    h'.inputs.trans h.inputs, h'.outputs.trans h.outputs⟩

theorem updateTensor_sameMake {p : Params} {ctx ctx' : CpuKernelContext} {ok : Bool}
    (h : updateTensor A p ctx = some (ctx', ok)) : SameMake ctx ctx' := by
  obtain ⟨hattrs, hdevice, hsize, haddr, hin, hout⟩ := updateTensor_frame h
  exact ⟨hattrs, hdevice, hsize, haddr, hin, hout⟩

theorem leaves_sameMake (l : Launch) (ctx : CpuKernelContext) : SameMake ctx (l.leaves ctx) :=
  ⟨rfl, rfl, rfl, rfl, length_mapIdx, length_mapIdx⟩

/-- The context was made with the recipe, from the bytes of the node definition. -/
def MadeWith (parseFromString : List Byte → Option NodeDef) (made : Recipe × List Byte)
    (ctx : CpuKernelContext) : Prop :=
  ∃ nodeDef fresh, parseFromString made.2 = some nodeDef ∧ create made.1 nodeDef = some fresh ∧
    SameMake fresh ctx

/-- Every context was made with what is remembered for it, and the one under an id from the
node definition that belongs to the id. -/
structure CacheState.Inv (parseFromString : List Byte → Option NodeDef)
    (nodeDefOf : UInt64 → List Byte) (s : CacheState) : Prop where
  length : s.makers.length = s.contexts.length
  made : ∀ (id : Nat) (made : Recipe × List Byte) (ctx : CpuKernelContext),
    s.makers[id]? = some made → s.contexts[id]? = some ctx → MadeWith parseFromString made ctx
  cached : s.cache.Caches fun k id => ∃ made, s.makers[id]? = some made ∧ made.2 = nodeDefOf k

theorem create_spec {r : Recipe} {nodeDef : NodeDef} {fresh : CpuKernelContext}
    (h : create r nodeDef = some fresh) :
    r.workspace = some (fresh.workspaceSize, fresh.workspaceAddr) ∧
    fresh.attrs = r.added.foldl (fun attrs a => addAttrs attrs a.1 a.2) nodeDef.attrs ∧
    fresh.deviceType = r.deviceType ∧ fresh.inputs = nodeDef.inputs ∧
    fresh.outputs = nodeDef.outputs := by
  obtain ⟨w, hw, rfl⟩ := map_eq_some_iff.mp h
  exact ⟨hw, rfl, rfl, rfl, rfl⟩

/-- The tensors of `ts` are the old ones `ts₀` with data and shapes put in. The shapes are as
if they had been put into `ts`, exactly where the old ones were right already or do not
matter. -/
theorem put_iff {ts₀ ts ts' : List CpuTensor} {data : Nat → UInt64}
    {dims : Nat → Option (List Int64)} (hlen : ts₀.length = ts.length)
    (hput : ∀ i t, ts₀[i]? = some t → ∃ t', ts'[i]? = some t' ∧ t'.data = data i ∧
      t'.dims = (dims i).getD t.dims) :
    (∀ i t, ts[i]? = some t → ∃ t', ts'[i]? = some t' ∧ t'.data = data i ∧
      t'.dims = (dims i).getD t.dims) ↔
    ∀ (i : Nat) (t t' : CpuTensor), ts[i]? = some t → ts₀[i]? = some t' → dims i = none →
      t'.dims = t.dims := by
  constructor
  · intro h i t t₀ ht ht₀ hnone
    obtain ⟨t', ht', -, hdims⟩ := h i t ht
    obtain ⟨t'', ht'', -, hdims₀⟩ := hput i t₀ ht₀
    obtain rfl := some.inj (ht'.symm.trans ht'')
    rw [hnone, getD_none] at hdims hdims₀
    rw [← hdims₀, hdims]
  · intro h i t ht
    have hi : i < ts₀.length := by
      rw [hlen]
      exact (List.getElem?_eq_some_iff.mp ht).1
    have ht₀ := getElem?_eq_getElem hi
    obtain ⟨t', ht', hdata, hdims⟩ := hput i _ ht₀
    refine ⟨t', ht', hdata, ?_⟩
    rw [hdims]
    cases hbrings : dims i with
    | none =>
      rw [getD_none, getD_none]
      exact h i t _ ht ht₀ hbrings
    | some shape => rfl

variable {p : Params} {nodeDef : NodeDef} {fresh ctx₀ ctx : CpuKernelContext}

theorem asFresh_of_create (h : updateTensor A p fresh = some (ctx, true)) :
    AsFresh A p fresh ctx := by
  have hsame := updateTensor_sameMake h
  obtain ⟨hin, hout⟩ := updateTensor_spec h
  exact ⟨hsame.attrs, hsame.deviceType, hsame.workspaceSize, hsame.workspaceAddr, hin, hout⟩

/-- An updated context is as good as a fresh one just when what it was made with still fits. -/
theorem asFresh_iff_stillFits {made : Recipe × List Byte} {now : Recipe}
    (hmade : MadeWith parseFromString made ctx₀) (hbytes : made.2 = p.nodeDef)
    (hparse : parseFromString p.nodeDef = some nodeDef) (hfresh : create now nodeDef = some fresh)
    (h : updateTensor A p ctx₀ = some (ctx, true)) :
    AsFresh A p fresh ctx ↔ StillFits A p nodeDef made.1 now ctx₀ := by
  obtain ⟨nodeDef', fresh₀, hparse', hfresh₀, hold⟩ := hmade
  obtain rfl : nodeDef = nodeDef' := by
    rw [hbytes, hparse] at hparse'
    exact some.inj hparse'
  -- The parts that only `create` sets are compared recipe by recipe, …
  have hsame := hold.trans (updateTensor_sameMake h)
  obtain ⟨hputIn, hputOut⟩ := updateTensor_spec h
  obtain ⟨hw₀, hattrs₀, hdevice₀, hin₀, hout₀⟩ := create_spec hfresh₀
  obtain ⟨hw, hattrs, hdevice, hin, hout⟩ := create_spec hfresh
  have hlenIn : ctx₀.inputs.length = nodeDef.inputs.length := by rw [hold.inputs, hin₀]
  have hlenOut : ctx₀.outputs.length = nodeDef.outputs.length := by rw [hold.outputs, hout₀]
  rw [hlenIn] at hputOut
  have hadded : ctx.attrs = fresh.attrs ↔ ∀ name, nodeDef.attrs name = none →
      made.1.added.lookup name = now.added.lookup name := by
    rw [hsame.attrs, hattrs₀, hattrs]
    exact foldl_addAttrs_eq_iff
  have hdeviceIff : ctx.deviceType = fresh.deviceType ↔ made.1.deviceType = now.deviceType := by
    rw [hsame.deviceType, hdevice₀, hdevice]
  have hworkspace : ctx.workspaceSize = fresh.workspaceSize ∧
      ctx.workspaceAddr = fresh.workspaceAddr ↔ made.1.workspace = now.workspace := by
    rw [hw₀, hw, hsame.workspaceSize, hsame.workspaceAddr, Option.some.injEq, Prod.mk.injEq]
  -- … and the tensors by what the update puts over them.
  have hinputs := put_iff hlenIn hputIn
  have houtputs := put_iff hlenOut hputOut
  constructor
  · intro hfr
    refine ⟨hadded.mp hfr.attrs, hdeviceIff.mp hfr.deviceType,
      hworkspace.mp ⟨hfr.workspaceSize, hfr.workspaceAddr⟩, hinputs.mp ?_, houtputs.mp ?_⟩
    · rw [← hin]
      exact hfr.inputs
    · rw [← hout, ← hin]
      exact hfr.outputs
  · intro hfits
    obtain ⟨hsize, haddr⟩ := hworkspace.mpr hfits.workspace
    refine ⟨hadded.mpr hfits.added, hdeviceIff.mpr hfits.deviceType, hsize, haddr, ?_, ?_⟩
    · rw [hin]
      exact hinputs.mpr hfits.inputs
    · rw [hin, hout]
      exact houtputs.mpr hfits.outputs

/-! ### The lookup -/

variable {nodeDefOf : UInt64 → List Byte} {s s' : CacheState} {r : Recipe}
  {used : Option CpuKernelContext}

theorem CacheState.inv_init (sessFlag : Bool) (capacity : Nat) :
    (CacheState.init sessFlag capacity).Inv parseFromString nodeDefOf where
  length := rfl
  made _ _ _ h := by cases h
  cached := KernelCache.caches_init sessFlag capacity _

theorem findContext_spec (h : s.Inv parseFromString nodeDefOf) (r : Recipe) (key : UInt64) :
    ∃ cache found, findContext s r key = some (cache, found) ∧
      ({ s with cache := cache } : CacheState).Inv parseFromString nodeDefOf ∧
      ∀ id, found = some id → r.lookUp = true ∧
        ∃ made, s.makers[id]? = some made ∧ made.2 = nodeDefOf key := by
  unfold findContext
  cases hlook : r.lookUp with
  | false =>
    exact ⟨s.cache, none, rfl, h, fun id hid => by cases hid⟩
  | true =>
    obtain ⟨cache, found, hget, hcaches, hfound⟩ := h.cached.get key
    exact ⟨cache, found, hget, ⟨h.length, h.made, hcaches⟩, fun id hid => ⟨rfl, hfound id hid⟩⟩

/-- What a kernel runs on: the context found under its key, or one made for it, updated. -/
theorem makeContext_spec {cache : KernelCache Nat} {found : Option Nat}
    (h : ({ s with cache := cache } : CacheState).Inv parseFromString nodeDefOf)
    (hnodeDef : p.msg.hasSessInfo = true → p.nodeDef = nodeDefOf p.msg.kernelId)
    (hmake : makeContext parseFromString s cache p r = some (s', found)) :
    s'.Inv parseFromString nodeDefOf ∧ ∀ id, found = some id →
      ∃ nodeDef fresh, parseFromString p.nodeDef = some nodeDef ∧
        create r nodeDef = some fresh ∧ s'.contexts[id]? = some fresh := by
  unfold makeContext at hmake
  split at hmake
  · obtain ⟨rfl, rfl⟩ := mk.inj (some.inj hmake)
    exact ⟨h, fun id hid => by cases hid⟩
  next nodeDef hparse =>
    obtain ⟨cache', hset, hmake⟩ := bind_eq_some_iff.mp hmake
    obtain ⟨fresh, hfresh, hmake⟩ := bind_eq_some_iff.mp hmake
    obtain ⟨rfl, rfl⟩ := mk.inj (some.inj hmake)
    have hnew : (s.makers ++ [(r, p.nodeDef)])[s.contexts.length]? = some (r, p.nodeDef) := by
      rw [← h.length]
      exact getElem?_concat_length
    -- One maker is added at the end, so the contexts made before keep theirs.
    have hgrow : cache.Caches fun k id => ∃ made,
        (s.makers ++ [(r, p.nodeDef)])[id]? = some made ∧ made.2 = nodeDefOf k := by
      refine h.cached.mono fun k id ⟨made, hat, hdef⟩ => ⟨made, ?_, hdef⟩
      rw [getElem?_append_left (List.getElem?_eq_some_iff.mp hat).1]
      exact hat
    refine ⟨⟨?_, ?_, ?_⟩, ?_⟩
    · rw [length_append, length_append, h.length]
      rfl
    · intro id made ctx hmade hctx
      have hlength : s.makers.length = s.contexts.length := h.length
      -- An old context or the one made now.
      by_cases hid : id < s.contexts.length
      · rw [getElem?_append_left hid] at hctx
        rw [getElem?_append_left (hlength ▸ hid)] at hmade
        exact h.made id made ctx hmade hctx
      · have hlast : id = s.contexts.length := by
          have := (List.getElem?_eq_some_iff.mp hctx).1
          rw [length_append] at this
          have hone : [fresh].length = 1 := rfl
          omega
        subst hlast
        rw [getElem?_concat_length] at hctx
        rw [hnew] at hmade
        obtain rfl := some.inj hctx
        obtain rfl := some.inj hmade
        exact ⟨nodeDef, fresh, hparse, hfresh, ⟨rfl, rfl, rfl, rfl, rfl, rfl⟩⟩
    · unfold cacheContext at hset
      split at hset
      next hsess =>
        obtain ⟨c', hc', hcaches⟩ :
            ∃ c', cache.setCache p.msg.kernelId s.contexts.length = some c' ∧
            c'.Caches _ := hgrow.set ⟨_, hnew, hnodeDef hsess⟩
        obtain rfl := some.inj (hc'.symm.trans hset)
        exact hcaches
      · obtain rfl := some.inj hset
        exact hgrow
    · intro id hid
      obtain rfl := some.inj hid
      exact ⟨nodeDef, fresh, hparse, hfresh, getElem?_concat_length⟩

theorem CacheState.Inv.set {id : Nat} (h : s.Inv parseFromString nodeDefOf)
    (hctx : s.contexts[id]? = some ctx₀) (hsame : SameMake ctx₀ ctx) :
    ({ s with contexts := s.contexts.set id ctx } : CacheState).Inv parseFromString
      nodeDefOf where
  length := by rw [length_set, h.length]
  made j made ctx' hmade hj := by
    rw [getElem?_set] at hj
    split at hj
    next hid =>
      subst hid
      obtain ⟨nodeDef, fresh, hparse, hfresh, hold⟩ := h.made id made ctx₀ hmade hctx
      split at hj
      · obtain rfl := some.inj hj
        exact ⟨nodeDef, fresh, hparse, hfresh, hold.trans hsame⟩
      · cases hj
    next => exact h.made j made ctx' hmade hj
  cached := h.cached

/-! ### The calls -/

theorem updateAndRun_spec {l : Launch} {id : Nat} (h : s.Inv parseFromString nodeDefOf)
    (hrun : updateAndRun A l p s id = some (s', used)) :
    s'.Inv parseFromString nodeDefOf ∧ ∀ ctx, used = some ctx → ∃ ctx₀,
      s.contexts[id]? = some ctx₀ ∧ updateTensor A p ctx₀ = some (ctx, true) := by
  obtain ⟨ctx₀, hctx₀, hrun⟩ := bind_eq_some_iff.mp hrun
  obtain ⟨⟨ctx₁, ok⟩, hupdate, hrun⟩ := bind_eq_some_iff.mp hrun
  have hsame := updateTensor_sameMake hupdate
  dsimp only at hrun
  split at hrun
  next hok =>
    obtain ⟨rfl, rfl⟩ := mk.inj (some.inj hrun)
    refine ⟨h.set hctx₀ (hsame.trans (leaves_sameMake l ctx₁)), fun ctx hctx => ?_⟩
    obtain rfl := some.inj hctx
    exact ⟨ctx₀, hctx₀, hok ▸ hupdate⟩
  next =>
    obtain ⟨rfl, rfl⟩ := mk.inj (some.inj hrun)
    exact ⟨h.set hctx₀ hsame, fun ctx hctx => by cases hctx⟩

variable {c : Call}

theorem runCall_eq (s : CacheState) (c : Call) : runCall A parseFromString s c =
    runWith A (fun s p => getContext parseFromString s p (c.recipe p.msg)) s c.launch := by
  cases c <;> rfl

theorem recipe_lookUp {msg : ExtInfoMsg} (h : (c.recipe msg).lookUp = true) :
    msg.hasSessInfo = true ∧ ∃ w, (c.recipe msg).workspace = some w := by
  cases c with
  | runKernel l => exact ⟨h, _, rfl⟩
  | runCpuKernelWithBlock l blk =>
    obtain ⟨hsess, hone⟩ := (Bool.and_eq_true _ _).mp h
    refine ⟨hsess, ?_⟩
    have hblockNum : blk.blockNum = 1 := beq_iff_eq.mp hone
    show ∃ w, blockWorkspace blk msg = some w
    unfold blockWorkspace
    split
    · rw [if_neg (by rw [hblockNum]; decide)]
      exact ⟨_, rfl⟩
    · exact ⟨_, rfl⟩

/-- One call: the contexts stay what they were made as, and the one that is handed to the
kernel is as fresh exactly if the call finds none in the cache or one that still fits. -/
theorem runCall_spec (h : s.Inv parseFromString nodeDefOf)
    (hnodeDef : ∀ p, parseParams A c.launch = some (.ok p) → p.msg.hasSessInfo = true →
      p.nodeDef = nodeDefOf p.msg.kernelId)
    (hrun : runCall A parseFromString s c = some (s', used)) :
    s'.Inv parseFromString nodeDefOf ∧ ∀ ctx, used = some ctx →
      (UsedAsFresh A parseFromString c ctx ↔ Meets A parseFromString s c) := by
  rw [runCall_eq] at hrun
  unfold runWith at hrun
  split at hrun
  · cases hrun
  · obtain ⟨rfl, rfl⟩ := mk.inj (some.inj hrun)
    exact ⟨h, fun ctx hctx => by cases hctx⟩
  next p hp =>
    obtain ⟨⟨s₁, id?⟩, hget, hrun⟩ := bind_eq_some_iff.mp hrun
    obtain ⟨⟨cache, found⟩, hfind, hget⟩ := bind_eq_some_iff.mp hget
    obtain ⟨cache', found', hfind', hinv, hfound⟩ :=
      findContext_spec h (c.recipe p.msg) p.msg.kernelId
    obtain ⟨rfl, rfl⟩ := mk.inj (some.inj (hfind.symm.trans hfind'))
    cases found with
    | some id =>
      obtain ⟨rfl, rfl⟩ := mk.inj (some.inj hget)
      obtain ⟨hinv', hused⟩ := updateAndRun_spec hinv hrun
      refine ⟨hinv', fun ctx hctx => ?_⟩
      obtain ⟨ctx₀, hctx₀, hupdate⟩ := hused ctx hctx
      -- the context was found: it was made from the node definition that this launch has
      obtain ⟨hlook, made, hmade, hbytes⟩ := hfound id rfl
      obtain ⟨hsess, w, hw⟩ := recipe_lookUp hlook
      rw [← hnodeDef p hp hsess] at hbytes
      obtain ⟨nodeDef, fresh₀, hparse, -⟩ := h.made id made ctx₀ hmade hctx₀
      rw [hbytes] at hparse
      obtain ⟨fresh, hfresh⟩ : ∃ fresh, create (c.recipe p.msg) nodeDef = some fresh :=
        ⟨_, map_eq_some_iff.mpr ⟨w, hw, rfl⟩⟩
      have hiff := asFresh_iff_stillFits (h.made id made ctx₀ hmade hctx₀) hbytes hparse hfresh
        hupdate
      constructor
      · intro ⟨p', nodeDef', fresh', hp', hparse', hfresh', has⟩
        obtain rfl := Except.ok.inj (some.inj (hp.symm.trans hp'))
        obtain rfl := some.inj (hparse.symm.trans hparse')
        obtain rfl := some.inj (hfresh.symm.trans hfresh')
        -- whatever `Meets` quantifies over is determined by the run
        intro p'' cache'' id' made' ctx' nodeDef'' hp'' hfind'' hmade' hctx' hparse''
        obtain rfl := Except.ok.inj (some.inj (hp.symm.trans hp''))
        obtain ⟨-, hid⟩ := mk.inj (some.inj (hfind.symm.trans hfind''))
        obtain rfl := some.inj hid
        obtain rfl := some.inj (hmade.symm.trans hmade')
        obtain rfl := some.inj (hctx₀.symm.trans hctx')
        obtain rfl := some.inj (hparse.symm.trans hparse'')
        exact hiff.mp has
      · intro hmeets
        exact ⟨p, nodeDef, fresh, hp, hparse, hfresh,
          hiff.mpr (hmeets p cache id made ctx₀ nodeDef hp hfind hmade hctx₀ hparse)⟩
    | none =>
      obtain ⟨hinv₁, hmade⟩ := makeContext_spec hinv (hnodeDef p hp) hget
      cases id? with
      | none =>
        obtain ⟨rfl, rfl⟩ := mk.inj (some.inj hrun)
        exact ⟨hinv₁, fun ctx hctx => by cases hctx⟩
      | some id =>
        obtain ⟨hinv', hused⟩ := updateAndRun_spec hinv₁ hrun
        refine ⟨hinv', fun ctx hctx => iff_of_true ?_ ?_⟩
        · obtain ⟨ctx₀, hctx₀, hupdate⟩ := hused ctx hctx
          obtain ⟨nodeDef, fresh, hparse, hfresh, hat⟩ := hmade id rfl
          obtain rfl := some.inj (hctx₀.symm.trans hat)
          exact ⟨p, nodeDef, ctx₀, hp, hparse, hfresh, asFresh_of_create hupdate⟩
        · -- nothing was found
          intro p' cache' id' _ _ _ hp' hfind' _ _ _
          obtain rfl := Except.ok.inj (some.inj (hp.symm.trans hp'))
          cases hfind.symm.trans hfind'

/-- Over all runs in which an id stands for one node definition: a context is handed to its
kernel as one made afresh, exactly if the call makes it or it still fits; so it is in every
run in which every cached context that is found still fits. -/
theorem used_as_fresh_iff {nodeDefOf : UInt64 → List Byte} (sessFlag : Bool) (capacity : Nat)
    {calls : List Call} (hnodeDef : ∀ c ∈ calls, ∀ p, parseParams A c.launch = some (.ok p) →
      p.msg.hasSessInfo = true → p.nodeDef = nodeDefOf p.msg.kernelId) :
    Along (callStep A parseFromString) (fun s c => ∀ s' ctx,
      runCall A parseFromString s c = some (s', some ctx) →
        (UsedAsFresh A parseFromString c ctx ↔ Meets A parseFromString s c))
      (CacheState.init sessFlag capacity) calls ∧
    (Along (callStep A parseFromString) (Meets A parseFromString)
        (CacheState.init sessFlag capacity) calls →
      Along (callStep A parseFromString) (fun s c => ∀ s' ctx,
        runCall A parseFromString s c = some (s', some ctx) → UsedAsFresh A parseFromString c ctx)
        (CacheState.init sessFlag capacity) calls) := by
  have hinit : (CacheState.init sessFlag capacity).Inv parseFromString nodeDefOf :=
    CacheState.inv_init sessFlag capacity
  have hall : Along (callStep A parseFromString) (fun _ c => ∀ p,
      parseParams A c.launch = some (.ok p) → p.msg.hasSessInfo = true →
        p.nodeDef = nodeDefOf p.msg.kernelId) (CacheState.init sessFlag capacity) calls :=
    Along.of_forall calls _ hnodeDef
  have hstep : ∀ (s : CacheState) (c : Call) (s' : CacheState),
      s.Inv parseFromString nodeDefOf → (∀ p, parseParams A c.launch = some (.ok p) →
        p.msg.hasSessInfo = true → p.nodeDef = nodeDefOf p.msg.kernelId) →
      callStep A parseFromString s c = some s' → s'.Inv parseFromString nodeDefOf := by
    intro s c s' h hc hcall
    obtain ⟨⟨s'', used⟩, hrun, rfl⟩ := map_eq_some_iff.mp hcall
    exact (runCall_spec h hc hrun).1
  have hiff : Along (callStep A parseFromString) (fun s c => ∀ s' ctx,
      runCall A parseFromString s c = some (s', some ctx) →
        (UsedAsFresh A parseFromString c ctx ↔ Meets A parseFromString s c))
      (CacheState.init sessFlag capacity) calls :=
    Along.of_invariant hstep (fun s c h hc s' ctx hrun => (runCall_spec h hc hrun).2 ctx rfl)
      calls hall hinit
  refine ⟨hiff, fun hmeets => ?_⟩
  exact Along.of_invariant (I := fun _ => True) (fun _ _ _ _ _ _ => trivial)
    (fun s c _ hand s' ctx hrun => (hand.1 s' ctx hrun).mpr hand.2) calls (hiff.and hmeets) trivial

end Spec

/-- A call in session, under the kernel id 7, that waits for `waitId`. -/
def waitLaunch (waitId : Nat) : Launch where
  mem :=
    let A := packedAdapter
    let m := A.paramHead.set (fun _ => 0) 1000 .length 24
    let m := A.paramHead.set m 1000 .extInfoLength 50
    let m := A.paramHead.set m 1000 .extInfoAddr 2000
    let m := A.extInfo.set m 2000 .type (A.code .sessionInfo)
    let m := A.extInfo.set m 2000 .len 17
    let m := A.sessionInfo.set m 2008 .kernelId 7
    let m := A.extInfo.set m 2025 .type (A.code .asyncWait)
    let m := A.extInfo.set m 2025 .len 17
    let m := A.asyncWait.set m 2033 .waitType 1
    A.asyncWait.set m 2033 .waitId waitId
  paramHead := 1000
  fuel := 3
  leavesInput _ t := t
  leavesOutput _ t := t

/-- A node definition of no tensors. -/
def bareNodeDef : NodeDef := ⟨[], [], [], fun _ => none⟩

theorem parseParams_waitLaunch {waitId : Nat} (h : waitId = 1 ∨ waitId = 2) {p : Params}
    (hp : parseParams packedAdapter (waitLaunch waitId) = some (.ok p)) :
    p.nodeDef = [] ∧ p.msg.waitId = UInt32.ofNat waitId := by
  have hread : (parseParams packedAdapter (waitLaunch waitId)).map (fun r => r.toOption.map
      fun p => (p.nodeDef, p.msg.waitId)) = some (some ([], UInt32.ofNat waitId)) := by
    rcases h with rfl | rfl <;> decide +kernel
  rw [hp] at hread
  exact mk.inj (some.inj (some.inj hread))

theorem used_as_fresh_iff_waits :
    Along (callStep packedAdapter fun _ => some bareNodeDef) (fun s c => ∀ s' ctx,
      runCall packedAdapter (fun _ => some bareNodeDef) s c = some (s', some ctx) →
        (UsedAsFresh packedAdapter (fun _ => some bareNodeDef) c ctx ↔
          Meets packedAdapter (fun _ => some bareNodeDef) s c))
      (CacheState.init false 1024) [.runKernel (waitLaunch 1), .runKernel (waitLaunch 2)] := by
  obtain ⟨nodeDefOf, hempty⟩ : ∃ nodeDefOf : UInt64 → List Byte, ∀ k, nodeDefOf k = [] :=
    ⟨fun _ => [], fun _ => rfl⟩
  have hnodeDef : ∀ c ∈ [Call.runKernel (waitLaunch 1), Call.runKernel (waitLaunch 2)], ∀ p,
      parseParams packedAdapter c.launch = some (.ok p) → p.msg.hasSessInfo = true →
        p.nodeDef = nodeDefOf p.msg.kernelId := by
    intro c hc p hp _
    rw [hempty]
    rcases mem_pair.mp hc with rfl | rfl
    · exact (parseParams_waitLaunch (Or.inl rfl) hp).1
    · exact (parseParams_waitLaunch (Or.inr rfl) hp).1
  exact (used_as_fresh_iff false 1024 hnodeDef).1

/-- The second call waits for 2, and its kernel is told to wait for 1. -/
theorem stale_wait_id :
    (∀ c ∈ [Call.runKernel (waitLaunch 1), Call.runKernel (waitLaunch 2)], ∀ p,
      parseParams packedAdapter c.launch = some (.ok p) → p.nodeDef = []) ∧
    ¬ Along (callStep packedAdapter fun _ => some bareNodeDef) (fun s c => ∀ s' ctx,
      runCall packedAdapter (fun _ => some bareNodeDef) s c = some (s', some ctx) →
        UsedAsFresh packedAdapter (fun _ => some bareNodeDef) c ctx)
      (CacheState.init false 1024) [.runKernel (waitLaunch 1), .runKernel (waitLaunch 2)] := by
  refine ⟨fun c hc p hp => ?_, fun hfresh => ?_⟩
  · rcases mem_pair.mp hc with rfl | rfl
    · exact (parseParams_waitLaunch (Or.inl rfl) hp).1
    · exact (parseParams_waitLaunch (Or.inr rfl) hp).1
  have hused : ((callStep packedAdapter (fun _ => some bareNodeDef) (CacheState.init false 1024)
      (.runKernel (waitLaunch 1))).bind fun s => (runCall packedAdapter
        (fun _ => some bareNodeDef) s (.runKernel (waitLaunch 2))).bind fun r =>
          r.2.bind fun ctx => ctx.attrs "wait_id") = some (.int 1) := by decide +kernel
  obtain ⟨s₁, hstep, hused⟩ := bind_eq_some_iff.mp hused
  obtain ⟨⟨s₂, used⟩, hrun, hused⟩ := bind_eq_some_iff.mp hused
  obtain ⟨ctx, hctx, hstale⟩ := bind_eq_some_iff.mp hused
  dsimp only at hctx
  rw [hctx] at hrun
  obtain ⟨p, nodeDef, fresh, hp, hparse, hcreate, has⟩ := (hfresh.2 s₁ hstep).1 s₂ ctx hrun
  obtain rfl := some.inj hparse
  -- a fresh context has the number of its own launch
  have hwait : ctx.attrs "wait_id" = some (.int (Int64.ofNat p.msg.waitId.toNat)) := by
    rw [has.attrs, (create_spec hcreate).2.1, foldl_addAttrs_apply]
    rfl
  rw [(parseParams_waitLaunch (Or.inr rfl) hp).2] at hwait
  rw [hwait] at hstale
  exact absurd hstale (by decide)

end OpBase.Aicpu
