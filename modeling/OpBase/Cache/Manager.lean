import OpBase.Lib.Bytes
import OpBase.Lib.Run

/-!
# The manager of cached executions

`op_cache.cpp`: `OpExecCacheManager` owns the `OpExecCache` objects of a thread.
`cache_` finds them by a hash the caller set, `cache2_` by the bytes of their key,
least recently used ones last. An entry that is pushed out of `cache2_` is parked
on the `shrinkList_` of the execution whose `AddOpExecCache` pushed it out; when
that one completes (`Finalize`) or dies, the parked entries go to the queue of a
gc thread, which deletes them.

The manager is thread-local, so an execution that dies on the gc thread hands its
own parked entries to the manager of *that* thread, with a queue and a gc thread
of its own: `gcQueue n` is the queue of the `n`-th thread in this chain.

`deletions` counts the `delete`s of each execution. A step that would go on with a
deleted execution is refused; a second `delete` is counted.
-/

namespace OpBase.Cache

open Function (update)
open OpBase.Lib

/-- Executions by the order in which they were added. -/
abbrev ExecId := Nat

/-- The fields of an `OpExecCache` that the manager goes by. A null `key_` is `[]`. -/
structure Exec where
  hashKey : Nat
  key : List Byte
  l2Name : String
  canUse : Bool
  shrinkList : List ExecId
deriving Inhabited

/-- `IsOpCacheValid`. -/
def Exec.isOpCacheValid (c : Exec) : Bool := c.hashKey ≠ 0 || c.key ≠ []

/-- `MarkOpCacheInvalid`, where `CanUse` is false. -/
def Exec.markOpCacheInvalid (c : Exec) : Exec := { c with hashKey := 0, key := [] }

/-- `SetUse`. -/
def Exec.setUse (c : Exec) : Exec := if c.isOpCacheValid then { c with canUse := true } else c

/-- `K_CACHE_SHRINK_NUM`. -/
def cacheShrinkNum : Nat := 30

/-- What a `LockFreeQueue` of 1000 cells can hold. -/
def gcQueueRoom : Nat := 999

/-- The manager, the executions it has been given, the wraps that were handed out
and not yet run, and the executions that went over to a repeatable executor. -/
structure Manager where
  cacheLimit : Nat
  cache : List (Nat × ExecId)
  cache2 : List ExecId
  gcQueue : Nat → List ExecId
  cacheHasFull : Bool
  exec : ExecId → Exec
  nextExec : ExecId
  deletions : ExecId → Nat
  wraps : List ExecId
  owned : List ExecId

namespace Manager

def init (cacheLimit : Nat) : Manager :=
  { cacheLimit := cacheLimit
    cache := []
    cache2 := []
    gcQueue := fun _ => []
    cacheHasFull := false
    exec := fun _ => default
    nextExec := 0
    deletions := fun _ => 0
    wraps := []
    owned := [] }

/-- The execution was added and not deleted. -/
def Live (m : Manager) (e : ExecId) : Prop := e < m.nextExec ∧ m.deletions e = 0

instance (m : Manager) (e : ExecId) : Decidable (m.Live e) :=
  inferInstanceAs (Decidable (_ ∧ _))

/-! ## Reclamation -/

/-- `SubmitGcTask` on a queue. Where the queue is full, the entry is deleted as the
`ListHead` it is passed as, and its execution stays behind. -/
def submitGcTask (queue : List ExecId) (e : ExecId) : List ExecId :=
  if queue.length < gcQueueRoom then queue ++ [e] else queue

/-- `OldCacheClear`, on the thread whose manager has queue `n`. -/
def oldCacheClear (m : Manager) (n : Nat) (e : ExecId) : Manager :=
  { m with
    gcQueue := update m.gcQueue n ((m.exec e).shrinkList.foldl submitGcTask (m.gcQueue n))
    exec := update m.exec e { m.exec e with shrinkList := [] } }

/-- `delete e`: the destructor clears the parked entries first. -/
def deleteExec (m : Manager) (n : Nat) (e : ExecId) : Manager :=
  { m.oldCacheClear n e with deletions := update m.deletions e (m.deletions e + 1) }

/-- The gc thread of queue `n` takes its next entry. -/
def gcTask (m : Manager) (n : Nat) : Manager :=
  match m.gcQueue n with
  | [] => m
  | e :: rest => { m with gcQueue := update m.gcQueue n rest }.deleteExec (n + 1) e

/-- `ShrinkCache`: entries go from the far end of `cache2_` to the front of a list. -/
def shrinkCache (m : Manager) (num : Nat) (e : ExecId) : Manager :=
  let kept := m.cache2.length - num
  { m with
    cache2 := m.cache2.take kept
    exec := update m.exec e
      { m.exec e with shrinkList := m.cache2.drop kept ++ (m.exec e).shrinkList } }

/-- `DeleteCache1`, and the deletions in `cache2_.clear()`. -/
def deleteAll (m : Manager) (es : List ExecId) : Manager := es.foldl (deleteExec · 0) m

/-- `ClearCacheManually`, when the wait for outstanding wraps is over. -/
def clearCacheManually (m : Manager) : Manager :=
  let m := m.deleteAll (m.cache.map Prod.snd)
  let m := { m with cache := [] }
  let m := m.deleteAll m.cache2
  { m with cache2 := [], cacheHasFull := false }

/-! ## Lookup -/

/-- `cache_.find(hash)`. -/
def findHash (m : Manager) (hash : Nat) : Option ExecId := m.cache.lookup hash

/-- `cache2_.find(key)`. An entry whose key was freed is equal to no key. -/
def findKey (m : Manager) (key : List Byte) : Option ExecId :=
  m.cache2.find? fun e => key ≠ [] && (m.exec e).key == key

/-- What a successful `find` does to the recency order. -/
def touch (m : Manager) (e : ExecId) : Manager := { m with cache2 := e :: m.cache2.erase e }

/-- `CanUse`, for a call of the API `name`. -/
def canUse (m : Manager) (e : ExecId) (name : String) : Bool :=
  (m.exec e).l2Name == name && (m.exec e).canUse

/-- `GetOpExecCache`, behind the lookup, and `CreateCacheWrap`. -/
def handOut (m : Manager) (found : Option ExecId) (name : String) : Option Manager :=
  match found with
  | none => some m
  | some e =>
    if m.deletions e ≠ 0 then none
    else if m.canUse e name then some { m with wraps := e :: m.wraps }
    else some m

/-! ## Adding and removing -/

/-- The first branch of `AddOpExecCache`: the execution goes into `cache_`. -/
def addByHash (m : Manager) (e : ExecId) : Manager × Bool :=
  if (m.exec e).hashKey ≠ 0 ∧ m.findHash (m.exec e).hashKey = none then
    ({ m with cache := ((m.exec e).hashKey, e) :: m.cache }, true)
  else (m, false)

/-- The second branch: room is made in `cache2_`. -/
def makeRoom (m : Manager) (e : ExecId) : Manager :=
  if m.cacheLimit ≤ m.cache2.length then m.shrinkCache cacheShrinkNum e else m

/-- The third branch: the execution goes into `cache2_`. -/
def addByKey (m : Manager) (e : ExecId) : Manager × Bool :=
  if (m.exec e).key = [] then (m, false)
  else match m.findKey (m.exec e).key with
    | none => ({ m with cache2 := e :: m.cache2 }, true)
    | some other => (m.touch other, false)

/-- `AddOpExecCache`. -/
def addOpExecCache (m : Manager) (e : ExecId) : Manager :=
  if !(m.exec e).isOpCacheValid then m.deleteExec 0 e
  else if m.cacheLimit ≤ m.cache.length then { m with cacheHasFull := true }.deleteExec 0 e
  else
    let (m, byHash) := m.addByHash e
    let m := m.makeRoom e
    let (m, byKey) := m.addByKey e
    if byHash || byKey then m else m.deleteExec 0 e

/-- `new OpExecCache`. -/
def newExec (m : Manager) (hash : Nat) (key : List Byte) (name : String) : Manager :=
  { m with
    exec := update m.exec m.nextExec ⟨hash, key, name, false, []⟩
    nextExec := m.nextExec + 1 }

/-- `RemoveOpExecCache`. -/
def removeOpExecCache (m : Manager) (e : ExecId) : Manager :=
  if (m.exec e).hashKey ≠ 0 ∧ m.findHash (m.exec e).hashKey ≠ none then
    { m with cache := m.cache.eraseP (·.1 == (m.exec e).hashKey) }
  else match m.findKey (m.exec e).key with
    | none => m
    | some found => { m with cache2 := m.cache2.erase found }

/-- The executor of `e` is done: `Finalize` and `SetUse`. Without a launch in phase
two there is no cache buffer, and the execution becomes invalid. -/
def complete (m : Manager) (e : ExecId) (launched : Bool) : Manager :=
  let m := m.oldCacheClear 0 e
  let c := if launched then m.exec e else (m.exec e).markOpCacheInvalid
  { m with exec := update m.exec e c.setUse }

/-! ## Steps -/

inductive Step where
  /-- `GetFromCache` and `PTAFindExecCache`. -/
  | hit (key : List Byte) (name : String)
  /-- `PTAGetExecCache`. -/
  | hitHash (hash : Nat) (name : String)
  /-- A call that missed adds its execution. -/
  | add (hash : Nat) (key : List Byte) (name : String)
  /-- The executor that added `e` is done. -/
  | complete (e : ExecId) (launched : Bool)
  /-- A gc thread takes the next entry of its queue. -/
  | gc (n : Nat)
  /-- A wrap is run and destroyed. -/
  | runWrap (e : ExecId)
  /-- `SetRepeatable`: the execution leaves the cache for its executor. -/
  | remove (e : ExecId)
  /-- A repeatable executor deletes the execution it keeps. -/
  | release (e : ExecId)
  /-- `ShrinkCache` onto the list of `e`. -/
  | shrink (num : Nat) (e : ExecId)
  /-- `ClearCacheManually`. -/
  | clear
deriving DecidableEq

def step (m : Manager) : Step → Option Manager
  | .hit key name =>
    match m.findKey key with
    | none => some m
    | some e => (m.touch e).handOut (some e) name
  | .hitHash hash name => m.handOut (m.findHash hash) name
  | .add hash key name => some ((m.newExec hash key name).addOpExecCache m.nextExec)
  | .complete e launched =>
    if m.Live e ∧ (m.exec e).canUse = false then some (m.complete e launched) else none
  | .gc n => some (m.gcTask n)
  | .runWrap e =>
    if e ∈ m.wraps ∧ m.deletions e = 0 then some { m with wraps := m.wraps.erase e } else none
  | .remove e =>
    if m.Live e then
      some { m.removeOpExecCache e with owned := if e ∈ m.owned then m.owned else e :: m.owned }
    else none
  | .release e =>
    if e ∈ m.owned then some ({ m with owned := m.owned.erase e }.deleteExec 0 e) else none
  | .shrink num e => if m.Live e then some (m.shrinkCache num e) else none
  | .clear => some m.clearCacheManually

/-! ## What a step hands over -/

/-- The entries that adding an execution pushes out of `cache2_`. -/
def evicted (m : Manager) : List ExecId :=
  if m.cacheLimit ≤ m.cache2.length then m.cache2.drop (m.cache2.length - cacheShrinkNum) else []

/-- An added execution goes into `cache_`. -/
def GoesByHash (m : Manager) (hash : Nat) : Prop :=
  m.cache.length < m.cacheLimit ∧ hash ≠ 0 ∧ m.findHash hash = none

/-- An added execution goes into `cache2_`: no entry that stays there has its key. -/
def GoesByKey (m : Manager) (key : List Byte) : Prop :=
  m.cache.length < m.cacheLimit ∧ key ≠ [] ∧ ∀ e ∈ m.cache2, e ∉ m.evicted → (m.exec e).key ≠ key

instance (m : Manager) (hash : Nat) : Decidable (m.GoesByHash hash) :=
  inferInstanceAs (Decidable (_ ∧ _))

instance (m : Manager) (key : List Byte) : Decidable (m.GoesByKey key) :=
  inferInstanceAs (Decidable (_ ∧ _))

/-- What an execution that `AddOpExecCache` turns away hands over when it is deleted. -/
def turnedAway (m : Manager) (hash : Nat) (key : List Byte) : List ExecId :=
  if m.cache.length < m.cacheLimit ∧ (hash ≠ 0 ∨ key ≠ []) ∧
      ¬ m.GoesByHash hash ∧ ¬ m.GoesByKey key then m.evicted else []

/-- The entries a step submits to the gc queue `n`. -/
def submits (m : Manager) (a : Step) (n : Nat) : List ExecId :=
  match a with
  | .add hash key _ => if n = 0 then m.turnedAway hash key else []
  | .complete e _ | .release e => if n = 0 then (m.exec e).shrinkList else []
  | .gc k => if n = k + 1 then (m.gcQueue k).head?.elim [] fun e => (m.exec e).shrinkList else []
  | .clear =>
    if n = 0 then (m.cache.map Prod.snd ++ m.cache2).flatMap fun e => (m.exec e).shrinkList else []
  | _ => []

end Manager

end OpBase.Cache
