import OpBase.Indv.VerbKeyRoom
import OpBase.Lib.SortedList

/-!
# The kernel registry

`individual_op/executor/indv_collecter.cpp`: a table of buckets has an entry for every op type,
in each bucket in the order of `strcmp`, where a search stops at the first larger op type. An
entry has a table of its own with the kernels of the op, each bucket in the order they came in.
`NnopbaseCollecterAddRepoInfo` finds or adds the entry, converts the key and adds the kernel,
unless it is a static one with a key that is there already.

> `registry_finds`: after any calls the entry of an op type is found if and only if a call has
> registered it, there is one, and with a key it finds the first kernel that was registered with
> that key.

What a call undertakes is undefined (`none`) if the converted key does not fit its buffer. The
tiling function is what the registry outside has for the op type, if there is a registry;
`std::hash<uint64_t>` and `gert::ContinuousVector::SetSize` are parameters.
-/

namespace OpBase.Indv.Registry

open OpBase.Lib
open OpBase.Cache.Key (securecMemMaxLen)
open OpBase.Indv.BinKey (BinInfoKey hashBinary normMaxBinBuckets)
open OpBase.Indv.VerbKey

/-- An op type, as `strcmp` reads it. -/
abbrev OpType := { s : List Byte // 0 ∉ s }

/-- `strcmp`: byte by byte, a string in front of its continuations. -/
def strcmp (a b : OpType) : Ordering := compare a.val b.val

inductive CoreType where
  | kMix | kAicore | kVectorcore | kMixAiCore | kMixAiv | kCoreTypeEnd
deriving DecidableEq

inductive LoadBinInfoType where
  | kDynamicInfo | kStaticBinInfo | kTypeEnd
deriving DecidableEq

/-- `NnopbaseJsonInfo`, as far as the registry takes it over. -/
structure JsonInfo where
  opType : OpType
  kernelName : List Byte
  path : List Byte
  workspaceSizes : List UInt64
  workspaceSizeNum : Nat
  coreType : CoreType
  isStaticShape : Bool
  customizedSimplifiedKey : Bool
  loadBinInfoType : LoadBinInfoType
  blockDim : UInt32
  multiKernelType : UInt32
  bin : Nat
  binLen : UInt32
deriving DecidableEq

/-- `NnopbaseBinInfo`. -/
structure BinInfo where
  coreType : CoreType
  isStaticShape : Bool
  blockDim : UInt32
  kernelName : List Byte
  multiKernelType : UInt32
  loadBinInfoType : LoadBinInfoType
  binLen : UInt32
  bin : Nat
  staticWorkspaceSizes : List UInt64
  binPath : List Byte
  binInfoKey : BinInfoKey
deriving DecidableEq

/-- An index of a table. -/
abbrev Bucket := Fin 1024

/-- `NnopbaseRegInfo`. -/
structure RegInfo where
  opType : OpType
  hashKey : UInt64
  tiling : Nat
  binTbl : Bucket → List BinInfo
  isActive : Bool
  hasStaticShapeBin : Bool
  customizedSimplifiedKey : Bool

/-- `regInfoTbl`. -/
abbrev RegInfoTbl := Bucket → List RegInfo

/-- What the registry depends on. -/
structure Env where
  hasher : UInt64 → UInt64
  setSize : Nat → Bool

variable (env : Env)

/-- The hash of an op type or a key. -/
def hashKey (bytes : List Byte) : UInt64 := hashBinary env.hasher bytes % normMaxBinBuckets

/-! ## Kernels -/

/-- `NnopbaseCollecterFindBinInfo`. -/
def findBinInfo (r : RegInfo) (hash : UInt64) (verbose : List Byte) : Option BinInfo :=
  if h : hash.toNat < 1024 then
    (r.binTbl ⟨hash.toNat, h⟩).find? fun b =>
      b.binInfoKey.len = verbose.length ∧ b.binInfoKey.verbose = verbose
  else none

/-- `NnopbaseBinInfoSetOpBinInfoKey`. -/
def setOpBinInfoKey (verbose : List Byte) : Option BinInfoKey :=
  if 0 < verbose.length ∧ verbose.length ≤ securecMemMaxLen then
    some ⟨hashKey env verbose, verbose, verbose.length, verbose.length⟩
  else none

/-- The kernel that `NnopbaseCollecterAddBinInfo` makes of a description and a key. -/
def newBinInfo (info : JsonInfo) (verbose : List Byte) : Option BinInfo :=
  let isStaticBin := info.loadBinInfoType = .kStaticBinInfo
  if env.setSize info.workspaceSizeNum then
    (setOpBinInfoKey env verbose).map fun key =>
      { coreType := info.coreType
        isStaticShape := info.isStaticShape
        blockDim := info.blockDim
        kernelName := info.kernelName
        multiKernelType := info.multiKernelType
        loadBinInfoType := info.loadBinInfoType
        binLen := if isStaticBin then info.binLen else 0
        bin := if isStaticBin then info.bin else 0
        staticWorkspaceSizes := info.workspaceSizes.take info.workspaceSizeNum
        binPath := info.path
        binInfoKey := key }
  else none

/-- `NnopbaseCollecterInsertBinInfo`. -/
def insertBinInfo (r : RegInfo) (b : BinInfo) : RegInfo :=
  if h : b.binInfoKey.hashKey.toNat < 1024 then
    let bucket : Bucket := ⟨b.binInfoKey.hashKey.toNat, h⟩
    { r with binTbl := Function.update r.binTbl bucket (r.binTbl bucket ++ [b]) }
  else r

/-- `NnopbaseCollecterAddBinInfo`; `false` is an error. -/
def addBinInfo (r : RegInfo) (info : JsonInfo) (verbose : List Byte) : Bool × RegInfo :=
  if info.isStaticShape ∧ (findBinInfo r (hashKey env verbose) verbose).isSome then (true, r)
  else
    match newBinInfo env info verbose with
    | none => (false, r)
    | some b => (true, insertBinInfo r b)

/-! ## Entries -/

/-- `NnopbaseCollecterFindRegInfoInTbl`. -/
def findRegInfoInTbl (tbl : RegInfoTbl) (opType : OpType) (hash : UInt64) : Option RegInfo :=
  if h : hash.toNat < 1024 then findSorted strcmp RegInfo.opType opType (tbl ⟨hash.toNat, h⟩)
  else none

/-- `NnopbaseCollecterOpRegInfoInit`. -/
def opRegInfoInit (opType : OpType) (hash : UInt64) (tiling : Nat) : RegInfo :=
  ⟨opType, hash, tiling, fun _ => [], true, false, false⟩

/-- `NnopbaseCollecterAddRegInfoToTbl`, with what `NnopbaseCollecterSetTiling` finds. -/
def addRegInfoToTbl (tbl : RegInfoTbl) (opType : OpType) (hash : UInt64) (tiling : Option Nat) :
    Option (RegInfo × RegInfoTbl) :=
  if h : hash.toNat < 1024 then
    tiling.map fun f =>
      let r := opRegInfoInit opType hash f
      let bucket : Bucket := ⟨hash.toNat, h⟩
      (r, Function.update tbl bucket (insertSorted strcmp RegInfo.opType r (tbl bucket)))
  else none

/-! ## A call -/

/-- A call of `NnopbaseCollecterAddRepoInfo`. -/
structure Call where
  info : JsonInfo
  key : List Byte
  tiling : Option Nat
deriving DecidableEq

/-- The key in its buffer; the registry takes `keySize` bytes of it. -/
def Call.verbose (call : Call) : Option (List Byte) := do
  let r ← if call.info.isStaticShape then convertStaticVerbKey call.key
    else if call.info.customizedSimplifiedKey then convertCustomizedVerbKey call.key
    else convertDynamicVerbKey call.key
  if r.1.length ≤ binKeyLen call.key then some (r.1.take r.2.toNat) else none

/-- The call goes on with the entry. -/
def addToRegInfo (r : RegInfo) (call : Call) : Option (Bool × RegInfo) :=
  if r.isActive then
    let r := { r with customizedSimplifiedKey := call.info.customizedSimplifiedKey }
    let r := if call.info.isStaticShape then { r with hasStaticShapeBin := true } else r
    call.verbose.map fun verbose => addBinInfo env r call.info verbose
  else some (false, r)

/-- The entry is changed where it stands. -/
def putRegInfo (tbl : RegInfoTbl) (hash : UInt64) (r : RegInfo) : RegInfoTbl :=
  if h : hash.toNat < 1024 then
    let bucket : Bucket := ⟨hash.toNat, h⟩
    Function.update tbl bucket (replaceSorted strcmp RegInfo.opType r (tbl bucket))
  else tbl

/-- The entry that is found or added. -/
def findOrAdd (tbl : RegInfoTbl) (call : Call) : Option (RegInfo × RegInfoTbl) :=
  let hash := hashKey env call.info.opType.val
  match findRegInfoInTbl tbl call.info.opType hash with
  | some r => some (r, tbl)
  | none => addRegInfoToTbl tbl call.info.opType hash call.tiling

/-- `NnopbaseCollecterAddRepoInfo`; `false` is an error. -/
def addRepoInfo (tbl : RegInfoTbl) (call : Call) : Option (Bool × RegInfoTbl) :=
  match findOrAdd env tbl call with
  | none => some (false, tbl)
  | some (r, tbl) =>
    (addToRegInfo env r call).map fun x =>
      (x.1, putRegInfo tbl (hashKey env call.info.opType.val) x.2)

def Call.step (tbl : RegInfoTbl) (call : Call) : Option RegInfoTbl :=
  (addRepoInfo env tbl call).map Prod.snd

/-- A new registry. -/
def RegInfoTbl.empty : RegInfoTbl := fun _ => []

end OpBase.Indv.Registry
