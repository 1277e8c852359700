import Mathlib

/-!
# The block pool and the thread caches

`block_pool.h`, `block_store.h` and `block_store.cpp`: host memory comes in six
size classes. Each class has a `BlockStore`, a slab of blocks with a free list
of block indices; each thread has a `BlockCache`, with one intrusive list of
blocks for each class, that is refilled from the stores in batches and, when a
store is empty, from the system allocator. A block's class is read back from
its header when it is freed.

The state is what the code keeps: the headers, the free list heads, the heads
and counts of every thread's lists, and for a thread inside an allocation where
it stands and which blocks it has collected (`addrList`). Two fields are the
caller's and the system's side of the story: `held`, the pointers handed out
with the sizes they were asked for, and `sysUsed`/`sysSize`, the allocations of
`std::malloc` that are not freed.

A step is what happens between two points where another thread can interfere:
the section under the pool's spin lock, one call of `std::malloc`, or a section
that touches the thread's own cache only. What `std::malloc` returns (an
address not in use with arbitrary bytes in it, or null) is part of the step.
-/

namespace OpBase.Pool

open Function (update)

/-! ## Size classes -/

/-- `BlockPool::MAX_STORE`. -/
def maxStore : Nat := 6

/-- `BlockPool::BLOCK_BASE_SIZE`. -/
def blockBaseSize : Nat := 64

/-- `BlockPool::BLOCK_MAX_SIZE`. -/
def blockMaxSize : Nat := blockBaseSize * 1024

/-- `sizeof(BlockStore::BlockHeader)`: four, four, four, two, two and eight bytes. -/
def headerSize : Nat := 24

structure BlockDesc where
  size : Nat
  count : Nat

/-- `BlockPool::StoreIndex`. -/
def storeIndex : List BlockDesc :=
  [⟨blockBaseSize, 32768⟩, ⟨blockBaseSize * 4, 16384⟩, ⟨blockBaseSize * 16, 32768⟩,
    ⟨blockBaseSize * 64, 8192⟩, ⟨blockBaseSize * 256, 2048⟩, ⟨blockMaxSize, 512⟩]

/-- `BlockStore::AlignedBlockSize`. -/
def alignedBlockSize (reqSize : Nat) : Nat := (reqSize + 64 - 1) / 64 * 64

/-- `blockSize_` of the store of class `i`. -/
def blockSize (i : Nat) : Nat := alignedBlockSize (storeIndex.getD i ⟨0, 0⟩).size

/-- `blockCount_` of the store of class `i`. -/
def blockCount (i : Nat) : Nat := (storeIndex.getD i ⟨0, 0⟩).count

/-- `BlockCache::CacheBatchSize`. -/
def cacheBatchSize (i : Nat) : Nat := [16, 8, 16, 4, 1, 1].getD i 0

/-- `BlockCache::cacheMaxCount_`. -/
def cacheMaxCount (i : Nat) : Nat := [4096, 2048, 4096, 1024, 256, 64].getD i 0

/-- The loop of `GetStoreIndex`; a `size_t` is shifted to zero in 32 rounds. -/
def storeIndexLoop : Nat → Nat → Nat → Nat
  | 0, idx, _ => idx
  | fuel + 1, idx, reqSize =>
    if reqSize < 4 then idx
    else if reqSize >>> 2 = 0 then idx + 1
    else storeIndexLoop fuel (idx + 1) (reqSize >>> 2)

/-- `BlockPool::GetStoreIndex`; `INVALID_STORE` is `none`. -/
def getStoreIndex (reqSize : Nat) : Option Nat :=
  if reqSize = 0 ∨ blockMaxSize < reqSize then none
  else if reqSize ≤ blockBaseSize then some 0
  else some (storeIndexLoop 32 1 ((reqSize - 1) >>> 6))

/-! ## Blocks and headers -/

abbrev Thread := Nat

/-- A block of a store, by class and index, or one of the system allocator, by address. -/
inductive Block where
  | store (i k : Nat)
  | sys (addr : Nat)
deriving DecidableEq

/-- What `cacheExt_` holds: `NOT_IN_CACHE`, the cache the block was handed out by,
or, on a cache's list, the next header. The word's three readings cannot be
confused: headers and caches are distinct aligned objects and `NOT_IN_CACHE` is odd. -/
inductive CacheExt where
  | notInCache
  | cache (t : Thread)
  | link (next : Option Block)
deriving DecidableEq

/-- The pointer a link word is read as. -/
def CacheExt.asHead : CacheExt → Option Block
  | .link next => next
  | _ => none

/-- `BlockStore::BlockHeader`; `BlockIdx` is an `int32_t` with -1 for none. -/
structure Header where
  magic : Nat
  blockIdx : Int
  next : Int
  userTag : Nat
  cacheExt : CacheExt

/-- `BlockStore::MAGIC`. -/
def magic : Nat := 0x12345678

/-- `BlockPool::DEFAULT_TAG`. -/
def defaultTag : Nat := 0x1337

/-- `BlockPool::SYS_TAG`. -/
def sysTag : Nat := 0xfeed

/-- `GetBlockCacheIndex`. -/
def getBlockCacheIndex (head : Header) : Int :=
  if head.userTag ≠ sysTag then (head.userTag : Int) - defaultTag else head.blockIdx

/-! ## The state -/

/-- A thread's `BlockCache`: `cacheHead_` and `cacheCount_`. -/
structure Cache where
  head : Nat → Option Block
  count : Nat → Nat

/-- Where a thread stands: outside, in `MallocImpl` with the store found empty,
in the second loop of `BatchMatchImpl`, or back in `PoolAlloc` with its blocks. -/
inductive Pc where
  | idle
  | sysMalloc (size : Nat)
  | batch (idx size : Nat) (addrList : List Block)
  | link (idx size : Nat) (addrList : List Block)

/-- The blocks a thread has collected and not passed on yet. -/
def Pc.addrList : Pc → List Block
  | .batch _ _ addrList => addrList
  | .link _ _ addrList => addrList
  | _ => []

def Pc.isIdle : Pc → Bool
  | .idle => true
  | _ => false

structure State where
  header : Block → Header
  freeHead : Nat → Int
  cache : Thread → Cache
  pc : Thread → Pc
  held : List (Block × Nat)
  sysUsed : List Block
  sysSize : Nat → Nat

namespace State

def setHeader (s : State) (b : Block) (h : Header) : State :=
  { s with header := update s.header b h }

def setPc (s : State) (t : Thread) (pc : Pc) : State :=
  { s with pc := update s.pc t pc }

/-- A pointer is handed to the caller. -/
def handOut (s : State) (b : Block) (size : Nat) : State :=
  { s with held := (b, size) :: s.held }

/-- The bytes behind the header of a block. -/
def usable (s : State) : Block → Nat
  | .store i _ => blockSize i
  | .sys addr => s.sysSize addr

/-! ## `BlockStore` -/

/-- `BlockStore::GetHeader`. -/
def getHeader (i : Nat) (idx : Int) : Option Block :=
  if idx < 0 ∨ blockCount i ≤ idx.toNat then none else some (.store i idx.toNat)

/-- `BlockStore::Alloc`. -/
def storeAlloc (s : State) (i : Nat) : Option (Block × State) :=
  if s.freeHead i = -1 then none
  else match getHeader i (s.freeHead i) with
    | none => none
    | some b => some (b, { s with freeHead := update s.freeHead i (s.header b).next })

/-- `BlockStore::Free`. -/
def storeFree (s : State) (i : Nat) (b : Block) : State :=
  let head := s.header b
  if head.magic ≠ magic ∨ head.userTag ≠ defaultTag + i then s
  else { s.setHeader b { head with cacheExt := .notInCache, next := s.freeHead i } with
    freeHead := update s.freeHead i head.blockIdx }

/-! ## `BlockPool` -/

/-- `std::malloc` of `bytes` bytes answers with the free address `addr`, whose
bytes are those of `junk`; the first 24 of them become the header. -/
def sysMalloc (s : State) (addr : Nat) (junk : Header) (bytes : Nat) : State :=
  { s.setHeader (.sys addr) junk with
    sysUsed := .sys addr :: s.sysUsed
    sysSize := update s.sysSize addr (bytes - headerSize) }

/-- `MallocImpl`, up to the call of `std::malloc`. -/
def malloc (s : State) (t : Thread) (size : Nat) : State :=
  match (getStoreIndex size).bind s.storeAlloc with
  | some (b, s') => s'.handOut b size
  | none => s.setPc t (.sysMalloc size)

/-- `MallocImpl`, from the call of `std::malloc` on. The sum of the sizes is a `size_t`. -/
def mallocEnd (s : State) (t : Thread) (size : Nat) : Option (Nat × Header) → State
  | none => s.setPc t .idle
  | some (addr, junk) =>
    ((s.sysMalloc addr { junk with userTag := sysTag, cacheExt := .notInCache }
      ((headerSize + size) % 2 ^ 64)).handOut (.sys addr) size).setPc t .idle

/-- The loop of `BatchMatchImpl` under the lock: at most `n` more blocks. -/
def batchStore (i : Nat) : Nat → State → List Block → State × List Block
  | 0, s, addrList => (s, addrList)
  | n + 1, s, addrList =>
    match s.storeAlloc i with
    | none => (s, addrList)
    | some (b, s') => batchStore i n s' (addrList ++ [b])

/-- The head of the second loop of `BatchMatchImpl`. -/
def batchNext (i size : Nat) (addrList : List Block) : Pc :=
  if addrList.length < cacheBatchSize i then .batch i size addrList else .link i size addrList

/-- `BatchMatchImpl`, up to the second loop. -/
def batchMalloc (s : State) (t : Thread) (i size : Nat) : State :=
  let (s', addrList) := batchStore i (cacheBatchSize i) s []
  s'.setPc t (batchNext i size addrList)

/-- One round of the second loop of `BatchMatchImpl`. -/
def batchSys (s : State) (t : Thread) (i size : Nat) (addrList : List Block) :
    Option (Nat × Header) → State
  | none => s.setPc t (.link i size addrList)
  | some (addr, junk) =>
    (s.sysMalloc addr { junk with userTag := sysTag } (headerSize + blockSize i)).setPc t
      (batchNext i size (addrList ++ [.sys addr]))

/-- `FreeImpl`. The class is a `size_t`: a tag below `DEFAULT_TAG` wraps. -/
def poolFree (s : State) (b : Block) : State :=
  let tag := (s.header b).userTag
  if tag = sysTag then { s with sysUsed := s.sysUsed.erase b }
  else if tag < defaultTag ∨ maxStore < tag - defaultTag then s
  else s.storeFree (tag - defaultTag) b

/-! ## `BlockCache` -/

/-- Put a header in front of the thread's list of class `i`. -/
def cachePush (s : State) (t : Thread) (i : Nat) (b : Block) : State :=
  let c := s.cache t
  { s.setHeader b { s.header b with cacheExt := .link (c.head i) } with
    cache := update s.cache t
      { head := update c.head i (some b), count := update c.count i (c.count i + 1) } }

/-- Take the header in front of the thread's list of class `i` and hand it out. -/
def cachePop (s : State) (t : Thread) (i : Nat) (b : Block) (size : Nat) : State :=
  let c := s.cache t
  let head := s.header b
  { (s.setHeader b { head with cacheExt := .cache t }).handOut b size with
    cache := update s.cache t
      { head := update c.head i head.cacheExt.asHead
        count := update c.count i (c.count i - 1) } }

/-- What `PoolAlloc` writes into the header of each block of a batch. -/
def stamp (s : State) (t : Thread) (i : Nat) (b : Block) : State :=
  let head := s.header b
  s.setHeader b { head with
    cacheExt := .cache t
    blockIdx := if head.userTag = sysTag then (i : Int) else head.blockIdx }

/-- The loop of `PoolAlloc`, from the second block on. -/
def linkRest (s : State) (t : Thread) (i : Nat) (bs : List Block) : State :=
  bs.foldl (fun s b => (s.stamp t i b).cachePush t i b) s

/-- `PoolAlloc`, behind `BatchMalloc`: the first block is handed out. -/
def poolAlloc (s : State) (t : Thread) (i size : Nat) : List Block → State
  | [] => s.setPc t .idle
  | b :: bs => (((s.stamp t i b).linkRest t i bs).handOut b size).setPc t .idle

/-- `CacheAllocImpl`, up to the point where another thread can interfere. -/
def cacheAlloc (s : State) (t : Thread) (size : Nat) : State :=
  match getStoreIndex size with
  | none => s.malloc t size
  | some i =>
    if maxStore < i then s
    else match (s.cache t).head i with
      | some b => s.cachePop t i b size
      | none => s.batchMalloc t i size

/-- The caller gives a pointer back. -/
def giveUp (s : State) (b : Block) : State :=
  { s with held := s.held.eraseP fun p => p.1 = b }

/-- `CacheFreeImpl`. -/
def cacheFree (s : State) (t : Thread) (b : Block) : State :=
  let head := s.header b
  let idx := getBlockCacheIndex head
  if head.cacheExt = .notInCache then s.poolFree b
  else if idx < 0 ∨ (maxStore : Int) < idx then s
  else if head.cacheExt ≠ .cache t ∧ cacheMaxCount idx.toNat < (s.cache t).count idx.toNat then
    s.poolFree b
  else s.cachePush t idx.toNat b

end State

/-! ## Runs of any number of threads -/

/-- What can happen next. `sys` is the return of a thread's call of `std::malloc`. -/
inductive Act where
  | cacheAlloc (t : Thread) (size : Nat)
  | malloc (t : Thread) (size : Nat)
  | sys (t : Thread) (answer : Option (Nat × Header))
  | poolAlloc (t : Thread)
  | cacheFree (t : Thread) (b : Block)
  | free (t : Thread) (b : Block)

/-- `std::malloc` never answers with memory that is in use. -/
def State.mayAnswer (s : State) (answer : Option (Nat × Header)) : Bool :=
  answer.all fun p => .sys p.1 ∉ s.sysUsed

/-- One step of one thread. A thread starts a call only when it is in none, and
frees only what was handed out and not freed since. -/
def step (s : State) : Act → Option State
  | .cacheAlloc t size => if (s.pc t).isIdle then some (s.cacheAlloc t size) else none
  | .malloc t size => if (s.pc t).isIdle then some (s.malloc t size) else none
  | .sys t answer =>
    if s.mayAnswer answer then
      match s.pc t with
      | .sysMalloc size => some (s.mallocEnd t size answer)
      | .batch i size addrList => some (s.batchSys t i size addrList answer)
      | _ => none
    else none
  | .poolAlloc t =>
    match s.pc t with
    | .link i size addrList => some (s.poolAlloc t i size addrList)
    | _ => none
  | .cacheFree t b =>
    if (s.pc t).isIdle ∧ b ∈ s.held.map Prod.fst then some ((s.giveUp b).cacheFree t b) else none
  | .free t b =>
    if (s.pc t).isIdle ∧ b ∈ s.held.map Prod.fst then some ((s.giveUp b).poolFree b) else none

/-- The headers `BlockStore::Init` writes; memory of the system is not looked at. -/
def initHeader : Block → Header
  | .store i k =>
    { magic := magic, blockIdx := k, next := if k + 1 < blockCount i then k + 1 else -1
      userTag := defaultTag + i, cacheExt := .notInCache }
  | .sys _ => { magic := 0, blockIdx := 0, next := 0, userTag := 0, cacheExt := .link none }

/-- The pool behind `BlockPool::Init`, with every thread's cache empty. -/
def init : State where
  header := initHeader
  freeHead := fun i => if i < maxStore then 0 else -1
  cache := fun _ => { head := fun _ => none, count := fun _ => 0 }
  pc := fun _ => .idle
  held := []
  sysUsed := []
  sysSize := fun _ => 0

end OpBase.Pool
