import OpBase.Pool.BlockPool

/-!
# Huge memory pools

`huge_mem.cpp`, `bridge_pool.cpp` and the huge blocks of `block_pool.h`: an
executor's small allocations are cut off the front of 64 KiB blocks and are
never freed one by one; releasing the pool gives its blocks back at once. A
pool holds five blocks in an array and any further ones on a list; the free
blocks and the free pool indices are two shared arrays under a lock each.

A request that no huge block can take (too large, no pool in the thread, no
free block left) is passed on to the block pool, so its state is part of this
one. An allocation is atomic here, as it touches nothing shared but the free
array, once; a release gives its blocks back one at a time and other threads
may take them while it goes on.
-/

namespace OpBase.Pool.HugeMem

open Function (update)

/-- `kMaxHugeMemPoolArryNum`. -/
def maxPoolArrayNum : Nat := 5

/-- `kMaxHugeMemObjectNum`. -/
def maxObjectNum : Nat := 4096

/-- `kHugeBlockNum`. -/
def hugeBlockNum : Nat := 4096

/-- `kHugeBlockSize`. -/
def hugeBlockSize : Nat := 64 * 1024

/-- `kHugeBlockDefaultOffset`. -/
def hugeBlockDefaultOffset : Nat := 64

/-- `HugeMemPool`: `baseArray_`, `currentArrayIndex_`, and the blocks of the links from
`head_` to `current_`. -/
structure HugeMemPool where
  baseArray : List (Option Nat)
  currentArrayIndex : Nat
  links : List Nat

/-- `HugeMemPool::Init`. -/
def HugeMemPool.init : HugeMemPool :=
  { baseArray := List.replicate maxPoolArrayNum none, currentArrayIndex := 0, links := [] }

/-- The blocks of a pool, in the order `ReleaseAllAddr` gives them back. -/
def HugeMemPool.blocks (pool : HugeMemPool) : List Nat :=
  pool.baseArray.filterMap id ++ pool.links

/-- Where a thread stands: not in a release, or with these blocks left to give back. -/
inductive Pc where
  | idle
  | releasing (id : Nat) (rest : List Nat)

def Pc.isIdle : Pc → Bool
  | .idle => true
  | .releasing _ _ => false

/-- An allocation cut off a huge block: `size` bytes from byte `start` of the block. -/
structure Cut where
  pool : Nat
  block : Nat
  start : Nat
  size : Nat

/-- The shared arrays (from their backs), the first word of each huge block, the
pools, and for each thread its `poolIndex_`; `live` are the allocations cut off
huge blocks and not released, `blocks` is the block pool. -/
structure State where
  hugeMemArray : List Nat
  offset : Nat → Nat
  pools : Nat → HugeMemPool
  poolIndices : List Nat
  poolIndex : Thread → Option Nat
  pc : Thread → Pc
  live : List Cut
  blocks : Pool.State

namespace State

def setPool (s : State) (id : Nat) (pool : HugeMemPool) : State :=
  { s with pools := update s.pools id pool }

def setPoolIndex (s : State) (t : Thread) (id : Option Nat) : State :=
  { s with poolIndex := update s.poolIndex t id }

def setPc (s : State) (t : Thread) (pc : Pc) : State :=
  { s with pc := update s.pc t pc }

def setOffset (s : State) (b n : Nat) : State :=
  { s with offset := update s.offset b n }

/-- What `GetAddr` answers: an address in a huge block, or whom it passes the request on to. -/
inductive Answer where
  | huge (block start : Nat)
  | malloc
  | cacheAlloc

/-- `GetOneHugeBlockImpl` for pool `id`, which keeps the block as `keep` says; the first
allocation starts behind the header. -/
def openBlock (s : State) (id size : Nat) (keep : Nat → HugeMemPool) : Answer × State :=
  match s.hugeMemArray with
  | [] => (.cacheAlloc, s)
  | b :: rest =>
    (.huge b hugeBlockDefaultOffset,
      ({ s with hugeMemArray := rest }.setPool id (keep b)).setOffset b
        (hugeBlockDefaultOffset + size))

/-- `offset[0] += size`. -/
def bump (s : State) (b size : Nat) : Answer × State :=
  (.huge b (s.offset b), s.setOffset b (s.offset b + size))

/-- The fast path of `HugeMemPool::GetAddr`, with `n` slots of the array left; `none`
is the break to the slow path. -/
def arrayPath (id size : Nat) : Nat → State → Option Answer × State
  | 0, s => (none, s)
  | n + 1, s =>
    let pool := s.pools id
    let i := pool.currentArrayIndex
    match pool.baseArray.getD i none with
    | none =>
      let (answer, s') := s.openBlock id size fun b =>
        { pool with baseArray := pool.baseArray.set i (some b) }
      (some answer, s')
    | some b =>
      if s.offset b + size ≤ hugeBlockSize then
        let (answer, s') := s.bump b size
        (some answer, s')
      else arrayPath id size n (s.setPool id { pool with currentArrayIndex := i + 1 })

/-- `AddOneHugeBlockToLinkList`. -/
def addOneHugeBlockToLinkList (s : State) (id size : Nat) : Answer × State :=
  s.openBlock id size fun b => { s.pools id with links := (s.pools id).links ++ [b] }

/-- The slow path of `HugeMemPool::GetAddr`; `current_` is the last link. -/
def linkPath (s : State) (id size : Nat) : Answer × State :=
  match (s.pools id).links.getLast? with
  | none => s.addOneHugeBlockToLinkList id size
  | some b =>
    if s.offset b + size ≤ hugeBlockSize then s.bump b size
    else s.addOneHugeBlockToLinkList id size

/-- `HugeMemPool::GetAddr`. -/
def getAddr (s : State) (id size : Nat) : Answer × State :=
  if hugeBlockSize - hugeBlockDefaultOffset < size then (.malloc, s)
  else
    match arrayPath id size (maxPoolArrayNum - (s.pools id).currentArrayIndex) s with
    | (some answer, s') => (answer, s')
    | (none, s') => s'.linkPath id size

/-- Hand out an allocation of a huge block. -/
def record (s : State) (id b start size : Nat) : State :=
  { s with live := { pool := id, block := b, start := start, size := size } :: s.live }

/-- A thread goes into the block pool. -/
def viaPool (s : State) (a : Pool.Act) : Option State :=
  (Pool.step s.blocks a).map fun blocks => { s with blocks := blocks }

/-- `Allocate`. -/
def allocate (s : State) (t : Thread) (size : Nat) : Option State :=
  match s.poolIndex t with
  | none => s.viaPool (.cacheAlloc t size)
  | some id =>
    if maxObjectNum ≤ id then some s
    else
      match s.getAddr id size with
      | (.huge b start, s') => some (s'.record id b start size)
      | (.malloc, s') => s'.viaPool (.malloc t size)
      | (.cacheAlloc, s') => s'.viaPool (.cacheAlloc t size)

/-- `InitHugeMemThreadLocal` with `GetAvaiablePoolIndex`. -/
def initThreadLocal (s : State) (t : Thread) : State :=
  match s.poolIndices with
  | [] => s.setPoolIndex t none
  | id :: rest => { s with poolIndices := rest }.setPoolIndex t (some id)

/-- `FreeHugeMem`, up to the first block that is given back. From here on the pool's
allocations are released. -/
def freeHugeMem (s : State) (t : Thread) : State :=
  let s' := s.setPoolIndex t none
  match s.poolIndex t with
  | none => s'
  | some id =>
    if maxObjectNum ≤ id then s'
    else { s' with live := s.live.filter fun c => c.pool ≠ id }.setPc t
      (.releasing id (s.pools id).blocks)

/-- `FreeOneHugeBlockImpl`. -/
def freeOneHugeBlock (s : State) (b : Nat) : State :=
  { s with hugeMemArray := b :: s.hugeMemArray }

end State

/-! ## Runs of any number of threads -/

/-- What can happen next. The last three are a thread's way through the block pool
and `DeAllocate` of an address that is not in huge memory. -/
inductive Act where
  | initThreadLocal (t : Thread)
  | unInitThreadLocal (t : Thread)
  | allocate (t : Thread) (size : Nat)
  | freeHugeMem (t : Thread)
  | freeOneHugeBlock (t : Thread)
  | returnIndex (t : Thread)
  | sys (t : Thread) (answer : Option (Nat × Header))
  | poolAlloc (t : Thread)
  | deAllocate (t : Thread) (b : Block)

/-- The thread is in no call. -/
def State.ready (s : State) (t : Thread) : Bool :=
  (s.pc t).isIdle && (s.blocks.pc t).isIdle

/-- One step of one thread. -/
def step (s : State) : Act → Option State
  | .initThreadLocal t => if s.ready t then some (s.initThreadLocal t) else none
  | .unInitThreadLocal t => if s.ready t then some (s.setPoolIndex t none) else none
  | .allocate t size => if s.ready t then s.allocate t size else none
  | .freeHugeMem t => if s.ready t then some (s.freeHugeMem t) else none
  | .freeOneHugeBlock t =>
    match s.pc t with
    | .releasing id (b :: rest) => some ((s.freeOneHugeBlock b).setPc t (.releasing id rest))
    | _ => none
  | .returnIndex t =>
    match s.pc t with
    | .releasing id [] =>
      some (({ s with poolIndices := id :: s.poolIndices }.setPool id .init).setPc t .idle)
    | _ => none
  | .sys t answer => s.viaPool (.sys t answer)
  | .poolAlloc t => s.viaPool (.poolAlloc t)
  | .deAllocate t b => if s.ready t then s.viaPool (.cacheFree t b) else none

/-- A vector that `0`, `1`, ..., `n - 1` were pushed to, from its back. -/
def pushed : Nat → List Nat
  | 0 => []
  | n + 1 => n :: pushed n

/-- The start: `BlockPool::Init` and `InitVecotr` have filled the arrays. -/
def init : State where
  hugeMemArray := pushed hugeBlockNum
  offset := fun _ => hugeBlockDefaultOffset
  pools := fun _ => .init
  poolIndices := pushed maxObjectNum
  poolIndex := fun _ => none
  pc := fun _ => .idle
  live := []
  blocks := Pool.init

end OpBase.Pool.HugeMem
