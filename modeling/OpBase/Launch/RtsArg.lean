import OpBase.Base.DataType
import OpBase.Lib.Bytes

/-!
# Launch arguments, filled and replayed

`rts_arg.cpp` puts a kernel's arguments into one block: a slot of eight bytes
for each argument, then the data that host arguments, tensor lists and the
tiling refer to. A slot holds an address, or it is a *placeholder*: the runtime
copies the data at its `dataOffset` to the device and stores the copy's address.

There are two ways to such a block. `FillArgs` builds it from the tensors of the
call. `AddArgInfoToCache` records a launch in the buffer of an `OpExecCache`
(`op_cache.cpp`) with a rule for each address, by the place of the tensor in the
workspace or among the call's storages; on a later call with the same key
`UpdateTensorAddr` writes the addresses the rules give and `RunFromCache` rebuilds
the placeholders. `view` is what the runtime makes of a block.

The dump of exception data behind a recorded launch is not modelled: it is
switched off unless a debug option asks for it.
-/

namespace OpBase.Launch

open OpBase.Lib

/-! ## Tensors and addresses -/

/-- What a launch reads of an `aclTensor`; its storage by identity. -/
structure Tensor where
  storage : Nat
  fromWorkspace : Bool
  workspaceOffset : UInt64
  storageOffset : Int
  viewOffset : Int
  dataType : DataType
  storageShape : List UInt64

/-- `OpExecCache`'s view of the call it was recorded for: the storages of the call's
tensors and, for storages made on the way, the storage each was made from. -/
structure Storages where
  cachedStorageList : List Nat
  storageRelation : Nat → Option Nat

/-- The addresses of one call, and the two the runtime gives. A storage made on the way
gets the address of the storage it was made from; every workspace storage has the
address of the workspace. -/
structure Addrs (S : Storages) where
  workspace : UInt64
  storage : Nat → UInt64
  related : ∀ m o, S.storageRelation m = some o → storage m = storage o
  hardwareSync : UInt64
  floatOverflow : UInt64

/-- `AppendOverflowStatusAddr`: the runtime is asked for the address once in a process, and a static
variable keeps what it said. `kept` is what it has: 0 until the first launch, and then the address
of that launch's context, whatever context a later call is made in. -/
def Addrs.keeping {S : Storages} (env : Addrs S) (kept : UInt64) : Addrs S :=
  { env with floatOverflow := if kept = 0 then env.floatOverflow else kept }

/-- `aclTensor::GetData`. -/
def Tensor.getData {S : Storages} (env : Addrs S) (t : Tensor) : UInt64 :=
  if t.fromWorkspace then
    env.workspace + t.workspaceOffset + UInt64.ofInt (calcShapeBytes t.viewOffset t.dataType true)
  else
    env.storage t.storage +
      UInt64.ofInt (calcShapeBytes (t.viewOffset + t.storageOffset) t.dataType true)

/-- `LaunchArgInfo::ArgAddr`: `DEVICE_ARG`, `HOST_ARG` (no bytes for null data) and
`DEVICE_PTR_ARG`. -/
inductive ArgAddr where
  | device (tensor : Option Tensor)
  | host (data : List Byte)
  | devicePtr (tensors : List (Option Tensor))

/-- A kernel launch. `capacity` is the room behind the tiling data's address. -/
structure KernelLaunch where
  hasFftsAddr : Bool
  args : List ArgAddr
  tilingData : List Byte
  capacity : Nat

/-! ## Blocks of data -/

/-- `HOST_VALUE_ALIGNMENT`. -/
def hostValueAlignment : Nat := 32

/-- `AlignSize` to a multiple of `HOST_VALUE_ALIGNMENT`. -/
def alignSize (n : Nat) : Nat :=
  (n + hostValueAlignment - 1) / hostValueAlignment * hostValueAlignment

/-- The data with zeros up to the alignment. -/
def zeroPadded (data : List Byte) : List Byte :=
  data ++ List.replicate (alignSize data.length - data.length) 0

/-- The block of a host argument; null data gets one block of zeros. -/
def hostBlock (data : List Byte) : List Byte :=
  if data = [] then List.replicate hostValueAlignment 0 else zeroPadded data

/-- What describes one tensor of a list: the constant 1 above the rank, then the dims. -/
def dimEntry : Option Tensor → List Byte
  | none => le8 0x100000000
  | some t => le8 (0x100000000 + UInt64.ofNat t.storageShape.length) ++ t.storageShape.flatMap le8

/-- `ptrListLen`: eight bytes for the offset, eight for each tensor and for each dim. -/
def ptrListLen (tensors : List (Option Tensor)) : Nat :=
  8 + (tensors.map fun t => 8 + 8 * (t.elim 0 fun t => t.storageShape.length)).sum

/-- A tensor list up to its addresses. -/
def ptrListHead (tensors : List (Option Tensor)) : List Byte :=
  le8 (UInt64.ofNat (ptrListLen tensors)) ++ tensors.flatMap dimEntry

/-- What memory holds where nothing is written: `len` bytes from `off` on. -/
def stale (old : Nat → Byte) (off len : Nat) : List Byte := (List.range' off len).map old

/-! ## A filled block -/

/-- Where a slot is and where its data: `aclrtPlaceHolderInfo`. -/
structure PlaceHolder where
  addrOffset : Nat
  dataOffset : Nat

/-- What is handed to the runtime: the block and its placeholders. -/
structure RtArgs where
  args : List Byte
  placeHolders : List PlaceHolder

/-- A block being filled: the slots so far, the data behind the tiling data. -/
structure RtsArg where
  slots : List Byte
  values : List Byte
  placeHolders : List PlaceHolder

/-- `argNum_`. -/
def argNum (l : KernelLaunch) : Nat :=
  (if l.hasFftsAddr then 1 else 0) + l.args.length + (if l.tilingData.length = 0 then 1 else 2)

/-- `PtrOffset`, a difference of addresses as a `size_t`. -/
def ptrOffset (left right : Nat) : Nat := (((right : Int) - left) % 2 ^ 64).toNat

namespace RtsArg

variable {S : Storages}

/-- Where the data of the next argument goes, from the tiling data's address. -/
def hostValue (l : KernelLaunch) (r : RtsArg) : Nat :=
  alignSize l.tilingData.length + r.values.length

/-- Put data behind the block, when there is room for it, and a placeholder for it. The
slot is left to the runtime. -/
def appendValue (l : KernelLaunch) (old : Nat → Byte) (block : List Byte) (r : RtsArg) :
    Option RtsArg :=
  if ptrOffset (r.hostValue l) l.capacity > block.length then
    some
      { slots := r.slots ++ stale old r.slots.length 8
        values := r.values ++ block
        placeHolders := r.placeHolders ++ [⟨r.slots.length, 8 * argNum l + r.hostValue l⟩] }
  else none

/-- The block of a tensor list in `AppendDevicePtrArg`. -/
def devicePtrBlock (env : Addrs S) (tensors : List (Option Tensor)) : List Byte :=
  zeroPadded (ptrListHead tensors ++ tensors.flatMap fun t => le8 (t.elim 0 fun t => t.getData env))

/-- `AppendArg`, `AppendHostArg` and `AppendDevicePtrArg`. -/
def append (env : Addrs S) (l : KernelLaunch) (old : Nat → Byte) (r : RtsArg) :
    ArgAddr → Option RtsArg
  | .device tensor =>
    some { r with slots := r.slots ++ le8 (tensor.elim 0 fun t => t.getData env) }
  | .host data => r.appendValue l old (hostBlock data)
  | .devicePtr tensors => r.appendValue l old (devicePtrBlock env tensors)

/-- `FinalizeArg`. -/
def finalize (env : Addrs S) (l : KernelLaunch) (old : Nat → Byte) (r : RtsArg) : RtArgs :=
  let r' := if l.tilingData.length ≠ 0 then
      { r with
        slots := r.slots ++ stale old r.slots.length 8
        placeHolders := r.placeHolders ++ [⟨r.slots.length, 8 * argNum l⟩] }
    else r
  { args := r'.slots ++ le8 env.floatOverflow ++ zeroPadded l.tilingData ++ r'.values
    placeHolders := r'.placeHolders }

end RtsArg

/-- `RtsArg::FillArgs`. `old` is what the block's memory holds before. -/
def fillArgs {S : Storages} (kept : UInt64) (env : Addrs S) (old : Nat → Byte) (l : KernelLaunch) :
    Option RtArgs :=
  let start : RtsArg :=
    { slots := if l.hasFftsAddr then le8 env.hardwareSync else [], values := [],
      placeHolders := [] }
  (l.args.foldlM (RtsArg.append env l old) start).map (RtsArg.finalize (env.keeping kept) l old)

/-! ## A recorded launch -/

/-- `AddrRule`. -/
structure AddrRule where
  isWorkspace : Bool
  workspaceOffset : UInt64
  l2TensorInx : Nat
  l2TensorOffset : UInt64

/-- `LaunchArgCache::ArgType`. -/
inductive ArgType where
  | fftsAddr
  | devAddr
  | hostData
  | tilingData
  | overflowAddr
  | devPtrAddr
deriving DecidableEq

/-- `LaunchArgCache::ArgInfo`; device addresses have no length. -/
structure ArgInfo where
  type : ArgType
  dataLen : Nat

/-- A launch in the buffer: its offset and the arguments its header lists. -/
structure Task where
  offset : Nat
  argInfo : List ArgInfo

/-- `OpExecCache` while it records: the bytes handed out of the buffer, the rules by
offset, the launches. -/
structure OpExecCache where
  buf : List Byte
  addrUpdateRelation : List (Nat × AddrRule)
  taskQueue : List Task

/-- `K_CACHE_BUF_SIZE`. -/
def cacheCap : Nat := 65536

/-- `MAX_CACHE_TILING_SIZE`. -/
def maxCacheTilingSize : Nat := 65536

/-- `sizeof(LaunchArgCache)` and `sizeof(LaunchArgCache::ArgInfo)`. -/
def launchArgCacheSize : Nat := 136

def argInfoSize : Nat := 8

namespace OpExecCache

variable (S : Storages) (old : Nat → Byte)

/-- `AddLaunchData` for the bytes that end up there; without room the cache is invalid. -/
def addLaunchData (bytes : List Byte) (c : OpExecCache) : Option OpExecCache :=
  if c.buf.length + bytes.length > cacheCap then none
  else some { c with buf := c.buf ++ bytes }

/-- `AddLaunchData` for bytes that are not written: the buffer `g_cacheBuf` serves one call
after another and holds what the last one left, `old`. -/
def addStaleData (len : Nat) (c : OpExecCache) : Option OpExecCache :=
  c.addLaunchData (stale old c.buf.length len)

/-- The rule `AddLaunchTensor` records, if it can place the tensor. -/
def addrRule (t : Tensor) : Option AddrRule :=
  let offset := UInt64.ofInt (calcShapeBytes (t.viewOffset + t.storageOffset) t.dataType true)
  if t.fromWorkspace then some ⟨true, t.workspaceOffset, 0, 0⟩
  else if t.storage ∈ S.cachedStorageList then
    some ⟨false, 0, S.cachedStorageList.idxOf t.storage, offset⟩
  else
    match S.storageRelation t.storage with
    | none => none
    | some rel =>
      if rel ∈ S.cachedStorageList then some ⟨false, 0, S.cachedStorageList.idxOf rel, offset⟩
      else none

/-- `AddLaunchTensor`, or a null address. -/
def addLaunchTensor (c : OpExecCache) : Option Tensor → Option OpExecCache
  | none => c.addLaunchData (le8 0)
  | some t =>
    match addrRule S t with
    | none => none
    | some rule =>
      addStaleData old 8
        { c with addrUpdateRelation := c.addrUpdateRelation ++ [(c.buf.length, rule)] }

/-- The first loop of `AddArgInfoToCache`: the slots. -/
def addSlot (c : OpExecCache) : ArgAddr → Option OpExecCache
  | .device tensor => c.addLaunchTensor S old tensor
  | .host _ => c.addLaunchData (le8 0)
  | .devicePtr _ => c.addLaunchData (le8 0)

/-- The length of a tensor list's block, up to the padding. -/
def listLen (tensors : List (Option Tensor)) : Nat := ptrListLen tensors + 8 * tensors.length

/-- The second loop of `AddArgInfoToCache`: the data. The padding behind a tensor list is
not written. -/
def addBlock (c : OpExecCache) : ArgAddr → Option OpExecCache
  | .device _ => some c
  | .host data => c.addLaunchData (hostBlock data)
  | .devicePtr tensors =>
    ((c.addLaunchData (ptrListHead tensors)).bind
      fun c => tensors.foldlM (addLaunchTensor S old) c).bind
      (addStaleData old (alignSize (listLen tensors) - listLen tensors))

/-- What the header lists for an argument. -/
def argInfo : ArgAddr → ArgInfo
  | .device _ => ⟨.devAddr, 0⟩
  | .host data => ⟨.hostData, (hostBlock data).length⟩
  | .devicePtr tensors => ⟨.devPtrAddr, alignSize (listLen tensors)⟩

def argInfos (l : KernelLaunch) : List ArgInfo :=
  (if l.hasFftsAddr then [⟨.fftsAddr, 0⟩] else []) ++ l.args.map argInfo ++
    [⟨.tilingData, (zeroPadded l.tilingData).length⟩, ⟨.overflowAddr, 0⟩]

/-- `AddArgInfoToCache`. -/
def addArgInfo (l : KernelLaunch) (c : OpExecCache) : Option OpExecCache := do
  let c ← (if l.hasFftsAddr then c.addStaleData old 8 else some c)
  let c ← l.args.foldlM (addSlot S old) c
  let c ← c.addStaleData old 16
  let c ← l.args.foldlM (addBlock S old) c
  c.addLaunchData (zeroPadded l.tilingData)

/-- `RtsArg::DumpToCache`: the header, then the arguments. A launch without tiling data
is not recorded. -/
def dumpToCache (l : KernelLaunch) (c : OpExecCache) : Option OpExecCache :=
  if l.tilingData.length = 0 ∨ maxCacheTilingSize ≤ l.tilingData.length then none
  else
    (addStaleData old (launchArgCacheSize + argNum l * argInfoSize)
      { c with taskQueue := c.taskQueue ++ [⟨c.buf.length, argInfos l⟩] }).bind
      (addArgInfo S old l)

/-- One launch of the first call: it is filled and, if that succeeds, recorded. -/
def launchAndDump {S : Storages} (kept : UInt64) (env : Addrs S) (old : Nat → Byte)
    (c : OpExecCache) (l : KernelLaunch) : Option OpExecCache :=
  (fillArgs kept env old l).bind fun _ => dumpToCache S old l c

/-- The cache of a call that made these launches. What the first of them makes the static variable
keep is what all of them write. -/
def record {S : Storages} (kept : UInt64) (env : Addrs S) (old : Nat → Byte)
    (ls : List KernelLaunch) : Option OpExecCache :=
  ls.foldlM (launchAndDump kept env old) ⟨[], [], []⟩

/-! ## Replay -/

variable {S}

/-- The address a rule gives for a new call. -/
def AddrRule.apply (env : Addrs S) (rule : AddrRule) : UInt64 :=
  if rule.isWorkspace then env.workspace + rule.workspaceOffset
  else (S.cachedStorageList.map env.storage).getD rule.l2TensorInx 0 + rule.l2TensorOffset

/-- `UpdateTensorAddr`. -/
def updateTensorAddr (env : Addrs S) (c : OpExecCache) : OpExecCache :=
  { c with
    buf := c.addrUpdateRelation.foldl
      (fun buf e => patch e.1 (le8 (AddrRule.apply env e.2)) buf) c.buf }

/-- The loop of `RunFromCache` from slot `i` on; `currHostDataLen` is the data passed. -/
def runLoop (env : Addrs S) (devAddrLen : Nat) : Nat → Nat → List ArgInfo → RtArgs → RtArgs
  | _, _, [], r => r
  | i, currHostDataLen, a :: as, r =>
    let placed : RtArgs :=
      { r with placeHolders := r.placeHolders ++ [⟨8 * i, devAddrLen + currHostDataLen⟩] }
    match a.type with
    | .fftsAddr =>
      runLoop env devAddrLen (i + 1) currHostDataLen as
        { r with args := patch (8 * i) (le8 env.hardwareSync) r.args }
    | .overflowAddr =>
      runLoop env devAddrLen (i + 1) currHostDataLen as
        { r with args := patch (8 * i) (le8 env.floatOverflow) r.args }
    | .hostData => runLoop env devAddrLen (i + 1) (currHostDataLen + a.dataLen) as placed
    | .tilingData => runLoop env devAddrLen (i + 1) (currHostDataLen + a.dataLen) as placed
    | .devPtrAddr => runLoop env devAddrLen (i + 1) (currHostDataLen + a.dataLen) as placed
    | .devAddr => runLoop env devAddrLen (i + 1) currHostDataLen as r

/-- `GetRawArgSize`. -/
def rawArgSize (argInfo : List ArgInfo) : Nat :=
  8 * argInfo.length + (argInfo.map fun a =>
    if a.type = .hostData ∨ a.type = .tilingData ∨ a.type = .devPtrAddr then a.dataLen else 0).sum

/-- `LaunchArgCache::RunFromCache`, up to the launch. -/
def runFromCache (env : Addrs S) (c : OpExecCache) (task : Task) : RtArgs :=
  let rawArg := task.offset + (launchArgCacheSize + task.argInfo.length * argInfoSize)
  runLoop env (8 * task.argInfo.length) 0 0 task.argInfo
    { args := (c.buf.drop rawArg).take (rawArgSize task.argInfo), placeHolders := [] }

end OpExecCache

/-! ## What the runtime sees -/

/-- A slot: eight bytes of address, or the data its placeholder designates. -/
inductive Slot where
  | address (bytes : List Byte)
  | data (bytes : List Byte)
deriving DecidableEq

/-- The slots of a block, given the length of each slot's data. -/
def view (r : RtArgs) (lens : List Nat) : List Slot :=
  lens.mapIdx fun i len =>
    match r.placeHolders.find? fun p => p.addrOffset = 8 * i with
    | some p => .data ((r.args.drop p.dataOffset).take len)
    | none => .address ((r.args.drop (8 * i)).take 8)

/-- The length of an argument's data, without the padding behind a tensor list. -/
def dataLen : ArgAddr → Nat
  | .device _ => 0
  | .host data => (hostBlock data).length
  | .devicePtr tensors => OpExecCache.listLen tensors

/-- The data lengths of a launch's slots. -/
def dataLens (l : KernelLaunch) : List Nat :=
  (if l.hasFftsAddr then [0] else []) ++ l.args.map dataLen ++ [(zeroPadded l.tilingData).length, 0]

/-- The tensors a launch lists. -/
def ArgAddr.tensors : ArgAddr → List Tensor
  | .device tensor => tensor.toList
  | .host _ => []
  | .devicePtr tensors => tensors.filterMap id

end OpBase.Launch
