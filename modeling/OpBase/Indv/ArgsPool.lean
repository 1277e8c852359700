import OpBase.Lib.Bytes
import OpBase.Lib.NodeList
import OpBase.Lib.Run

/-!
# The pool of cached args

`individual_op/executor/indv_args_pool.cpp` and `.h`: `ArgsPool` keeps the
`NnopbaseExecutorArgs` of past calls. `argsMap` has them by the hash of their key,
`cacheList` by the time of their last use, `argsCache` says where on that list each
is, and `fixedCacheMap` has the ones whose executor was made repeatable.

The executors' part is what they do with the pool: look up their key, take what is
found or have args created (with caching disabled, work on the `ownArgs` embedded in
the executor), be made repeatable (`NnopbaseSetRepeatable`), and give the args back
in `NnopbaseExecutorClear`.
-/

namespace OpBase.Indv

open Function (update)
open OpBase.Lib

/-- An `NnopbaseExecutorArgs *`: from the heap in `CreateArgs`, or the `ownArgs` of an
executor. -/
inductive ArgsPtr where
  | heap (n : Nat)
  | own (e : Nat)
deriving DecidableEq

/-- What the pool reads of an `NnopbaseExecutorArgs`; `inputKey` up to `keyLen`. -/
structure Args where
  seed : Nat := 0
  inputKey : List Byte := []
  isVist : Bool := false
deriving DecidableEq

/-- An executor between its first lookup and its clear. `args` is none where it has not
taken any yet; the pointer that the last use left there is not followed. `keyed` says that
`ownArgs` has the key of this use. -/
structure ArgsUser where
  args : Option ArgsPtr := none
  enableCache : Bool := true
  keyed : Bool := false

abbrev SeedMap := AList fun _ : Nat => List ArgsPtr

/-- The pool, the args it can reach and the executors that use it. -/
structure ArgsPool where
  maxCacheNum : Nat
  cacheList : NodeList ArgsPtr
  argsCache : AList fun _ : ArgsPtr => Nat
  argsMap : SeedMap
  fixedCacheMap : SeedMap
  args : ArgsPtr → Args
  nextArgs : Nat
  deletions : ArgsPtr → Nat
  executor : Nat → ArgsUser

namespace SeedMap

/-- `map[seed]`, which is there after the access. -/
def list (m : SeedMap) (seed : Nat) : List ArgsPtr := (AList.lookup seed m).getD []

def empty : SeedMap := (∅ : AList _)

/-- `args` is erased from `map[seed]`, and the list if nothing is left on it. -/
def erase (m : SeedMap) (seed : Nat) (a : ArgsPtr) : SeedMap :=
  if (m.list seed).erase a = [] then AList.erase seed m
  else AList.insert seed ((m.list seed).erase a) m

/-- The loop over `argsMap[seed]` that erases `args` where it finds it. -/
def takeOut (m : SeedMap) (seed : Nat) (a : ArgsPtr) : SeedMap :=
  if a ∈ m.list seed then m.erase seed a else AList.insert seed (m.list seed) m

/-- `map[seed].push_back(args)`. -/
def push (m : SeedMap) (seed : Nat) (a : ArgsPtr) : SeedMap :=
  AList.insert seed (m.list seed ++ [a]) m

end SeedMap

namespace ArgsPool

def init (maxCacheNum : Nat) : ArgsPool where
  maxCacheNum := maxCacheNum
  cacheList := NodeList.empty
  argsCache := ∅
  argsMap := SeedMap.empty
  fixedCacheMap := SeedMap.empty
  args _ := {}
  nextArgs := 0
  deletions _ := 0
  executor _ := {}

def setArgs (s : ArgsPool) (a : ArgsPtr) (args : Args) : ArgsPool :=
  { s with args := update s.args a args }

def setVist (s : ArgsPool) (a : ArgsPtr) (isVist : Bool) : ArgsPool :=
  s.setArgs a { s.args a with isVist }

def setExecutor (s : ArgsPool) (e : Nat) (user : ArgsUser) : ArgsPool :=
  { s with executor := update s.executor e user }

/-- `EraseArgs`. -/
def eraseArgs (s : ArgsPool) (tmp : ArgsPtr) : ArgsPool :=
  { s with
    argsMap := s.argsMap.takeOut (s.args tmp).seed tmp
    argsCache := s.argsCache.erase tmp
    deletions := update s.deletions tmp (s.deletions tmp + 1) }

/-- The loop of `Put`; each turn takes one from the list. -/
def evict : Nat → ArgsPool → ArgsPool
  | 0, s => s
  | n + 1, s =>
    if s.argsCache.entries.length ≥ s.maxCacheNum then
      match s.cacheList.back with
      | none => s
      | some (_, tmp) =>
        if (s.args tmp).isVist then s
        else evict n { s.eraseArgs tmp with cacheList := s.cacheList.popBack }
    else s

/-- `Put`. -/
def put (s : ArgsPool) (a : ArgsPtr) : ArgsPool :=
  let s := evict s.cacheList.nodes.length s
  { s with
    cacheList := s.cacheList.pushFront a
    argsCache := s.argsCache.insert a s.cacheList.next }

/-- `Get`. -/
def get (s : ArgsPool) (a : ArgsPtr) : ArgsPool :=
  match s.argsCache.lookup a with
  | some it => { s with cacheList := s.cacheList.splice it }
  | none => s

/-- The conditions of `IsArgsMatch`. -/
def isArgsMatch (s : ArgsPool) (key : List Byte) (a : ArgsPtr) : Bool :=
  !(s.args a).isVist && (s.args a).inputKey == key

/-- What `IsArgsMatch` does on a match. -/
def take (s : ArgsPool) (e : Nat) (a : ArgsPtr) : ArgsPool :=
  ((s.setVist a true).setExecutor e { s.executor e with args := some a }).get a

/-- The key of an executor's arguments goes into its `ownArgs`. -/
def setKey (hash : List Byte → Nat) (s : ArgsPool) (e : Nat) (key : List Byte) : ArgsPool :=
  (s.setArgs (.own e) { s.args (.own e) with seed := hash key, inputKey := key }).setExecutor e
    { s.executor e with keyed := true }

/-- `MatchArgs` for an executor whose arguments have this key. -/
def matchArgs (hash : List Byte → Nat) (s : ArgsPool) (e : Nat) (key : List Byte) :
    ArgsPool × Option ArgsPtr :=
  if s.maxCacheNum = 0 then
    (s.setExecutor e { s.executor e with enableCache := false }, none)
  else
    match ((s.setKey hash e key).argsMap.list (hash key)).find?
        ((s.setKey hash e key).isArgsMatch key) with
    | some a => ((s.setKey hash e key).take e a, some a)
    | none => (s.setKey hash e key, none)

/-- `CreateArgs` up to `Put`: new args under the seed of `ownArgs`, their own not set yet. -/
def allocate (s : ArgsPool) (e : Nat) : ArgsPool :=
  let a := ArgsPtr.heap s.nextArgs
  ({ s with
    nextArgs := s.nextArgs + 1
    argsMap := s.argsMap.push (s.args (.own e)).seed a
    args := update s.args a { isVist := true } } : ArgsPool).setExecutor e
      { s.executor e with args := some a }

/-- `CreateArgs`. -/
def createArgs (s : ArgsPool) (e : Nat) : ArgsPool :=
  if (s.executor e).enableCache then
    ((s.allocate e).put (.heap s.nextArgs)).setArgs (.heap s.nextArgs)
      { s.args (.own e) with isVist := true }
  else
    s.setExecutor e { s.executor e with args := some (.own e) }

/-- `FixCache`. -/
def fixCache (s : ArgsPool) (a : ArgsPtr) : ArgsPool :=
  let seed := (s.args a).seed
  { s with
    argsMap := s.argsMap.takeOut seed a
    cacheList :=
      if a ∈ s.argsMap.list seed then
        (s.argsCache.lookup a).elim s.cacheList s.cacheList.erase
      else s.cacheList
    argsCache := s.argsCache.erase a
    fixedCacheMap := s.fixedCacheMap.push seed a }

/-- `ReleaseFixedCache`. -/
def releaseFixedCache (s : ArgsPool) (a : ArgsPtr) : ArgsPool :=
  match AList.lookup (s.args a).seed s.fixedCacheMap with
  | none => s
  | some list =>
    let s' := if a ∈ list then s.put a else s
    { s' with fixedCacheMap := s'.fixedCacheMap.erase (s.args a).seed a }

/-- `ReleaseArgs`. -/
def releaseArgs (s : ArgsPool) (a : ArgsPtr) : ArgsPool :=
  (s.releaseFixedCache a).setVist a false

/-- `Finalize`: what `argsMap` has is deleted. -/
def finalize (s : ArgsPool) : ArgsPool :=
  { s with
    deletions := fun a => s.deletions a + (s.argsMap.entries.flatMap Sigma.snd).count a
    fixedCacheMap := SeedMap.empty
    argsMap := SeedMap.empty
    cacheList := NodeList.empty
    argsCache := ∅ }

end ArgsPool

/-! ## The executors -/

inductive PoolEvent where
  | matchArgs (e : Nat) (key : List Byte)
  /-- The cache is off for this use, in `NnopbaseMatchArgs` or `NnopbaseExecutorMatchCache`. -/
  | disableCache (e : Nat)
  | createArgs (e : Nat)
  | setRepeatable (e : Nat)
  /-- `NnopbaseExecutorClear`. -/
  | clear (e : Nat)

namespace ArgsPool

/-- An executor looks up and creates while it has no args, args for the cache behind a lookup;
it is made repeatable and cleared while it has some. -/
def step (hash : List Byte → Nat) (s : ArgsPool) : PoolEvent → Option ArgsPool
  | .matchArgs e key =>
    if (s.executor e).args = none then some (s.matchArgs hash e key).1 else none
  | .disableCache e =>
    if (s.executor e).args = none then
      some (s.setExecutor e { s.executor e with enableCache := false })
    else none
  | .createArgs e =>
    if (s.executor e).args = none ∧ ((s.executor e).enableCache → (s.executor e).keyed) then
      some (s.createArgs e)
    else none
  | .setRepeatable e => (s.executor e).args.map s.fixCache
  | .clear e => (s.executor e).args.map fun a => (s.releaseArgs a).setExecutor e {}

end ArgsPool

end OpBase.Indv
