import OpBase.Lib.NodeList
import OpBase.Lib.Run

/-!
# The kernel cache of the AICPU

`include/aicpu_common/context/common/kernel_cache.h`: `KernelCache` keeps what was
made of a kernel under its id, on a list with a map of iterators beside it. Outside
a session a hit moves the entry to the front, in a session entries stay in the order
they came in; the last one goes when there is no room.

What the cache is to do is told by the calls made so far: `History` has the last value
set under each id that was not evicted since, when it was last used and when it came
in.

> `kernel_cache_policy`: after any calls the list and the map agree, a lookup finds
> what the history has, and only the entry used longest ago (in a session the oldest)
> is ever evicted. The cache holds at most one entry more than its capacity, and at
> most its capacity exactly if no new id is set while it is full.
-/

namespace OpBase.Aicpu

open List

open Function (update update_of_ne update_self)
open OpBase.Lib
open Option (bind_eq_bind bind_some map_some some.inj)
open NodeList (Indexes mem_values nodes_erase_setAt)

/-- `kernel_cache_` and `kernel_cache_iter_`. -/
structure KernelCache (T : Type) where
  sessFlag : Bool
  capacity : Nat
  cache : NodeList (UInt64 × T)
  cacheIter : AList fun _ : UInt64 => Nat

namespace KernelCache

variable {T : Type}

def init (sessFlag : Bool) (capacity : Nat) : KernelCache T where
  sessFlag := sessFlag
  capacity := capacity
  cache := NodeList.empty
  cacheIter := ∅

/-- Erase the node and push its pair to the front. -/
def toFront (c : KernelCache T) (key : UInt64) (it : Nat) (pair : UInt64 × T) : KernelCache T :=
  { c with
    cache := (c.cache.erase it).pushFront pair
    cacheIter := c.cacheIter.insert key c.cache.next }

/-- `GetCache`. An iterator that points at no node is not followed. -/
def getCache (c : KernelCache T) (key : UInt64) : Option (KernelCache T × Option T) :=
  match c.cacheIter.lookup key with
  | none => some (c, none)
  | some it => do
    let pair ← c.cache.at? it
    some (if c.sessFlag then c else c.toFront key it pair, some pair.2)

/-- The cache is full: its last entry goes. -/
def popLast (c : KernelCache T) : KernelCache T :=
  match c.cache.back with
  | none => c
  | some (_, delKey, _) =>
    { c with cache := c.cache.popBack, cacheIter := c.cacheIter.erase delKey }

/-- Push a new entry to the front. -/
def enter (c : KernelCache T) (key : UInt64) (value : T) : KernelCache T :=
  { c with
    cache := c.cache.pushFront (key, value)
    cacheIter := c.cacheIter.insert key c.cache.next }

/-- `SetCache`. -/
def setCache (c : KernelCache T) (key : UInt64) (value : T) : Option (KernelCache T) :=
  match c.cacheIter.lookup key with
  | some it => do
    let pair ← c.cache.at? it
    let c' := { c with cache := c.cache.setAt it (pair.1, value) }
    some (if c.sessFlag then c' else c'.toFront key it (pair.1, value))
  | none =>
    some ((if c.capacity < c.cache.nodes.length then c.popLast else c).enter key value)

def keys (c : KernelCache T) : List UInt64 := c.cache.values.map Prod.fst

end KernelCache

/-! ## Calls and their history -/

inductive CacheCall (T : Type) where
  | get (key : UInt64)
  | set (key : UInt64) (value : T)

def CacheCall.key {T : Type} : CacheCall T → UInt64
  | .get key => key
  | .set key _ => key

/-- What the calls so far tell about each id. -/
structure History (T : Type) where
  now : Nat := 0
  value : UInt64 → Option T := fun _ => none
  used : UInt64 → Nat := fun _ => 0
  born : UInt64 → Nat := fun _ => 0

/-- A call is entered into the history, with the ids the cache had before and has now. -/
def History.next {T : Type} (h : History T) (before after : List UInt64) : CacheCall T → History T
  | .get key =>
    { h with
      now := h.now + 1
      value := fun k => if k ∈ before ∧ k ∉ after then none else h.value k
      used := update h.used key h.now }
  | .set key value =>
    { now := h.now + 1
      value := fun k => if k = key then some value
        else if k ∈ before ∧ k ∉ after then none else h.value k
      used := update h.used key h.now
      born := if (h.value key).isSome then h.born else update h.born key h.now }

structure TrackedCache (T : Type) where
  cache : KernelCache T
  history : History T

namespace TrackedCache

variable {T : Type}

def init (sessFlag : Bool) (capacity : Nat) : TrackedCache T where
  cache := KernelCache.init sessFlag capacity
  history := {}

def call (c : KernelCache T) : CacheCall T → Option (KernelCache T)
  | .get key => (c.getCache key).map Prod.fst
  | .set key value => c.setCache key value

def step (t : TrackedCache T) (e : CacheCall T) : Option (TrackedCache T) :=
  (call t.cache e).map fun c => ⟨c, t.history.next t.cache.keys c.keys e⟩

/-- The time that decides who is evicted. -/
def stamp (t : TrackedCache T) (key : UInt64) : Nat :=
  if t.cache.sessFlag then t.history.born key else t.history.used key

/-- The declared policy, in one state. -/
structure Keeps (t : TrackedCache T) : Prop where
  index : Indexes Prod.fst (fun k => t.cache.cacheIter.lookup k) t.cache.cache
  nodup : t.cache.keys.Nodup
  defined : ∀ e, (step t e).isSome
  hit : ∀ key, (t.cache.getCache key).map Prod.snd = some (t.history.value key)
  evicted : ∀ e t', step t e = some t' → ∀ d ∈ t.cache.keys, d ∉ t'.cache.keys →
    ∀ k, k ≠ d → (t.history.value k).isSome → t.stamp d < t.stamp k
  room : t.cache.cache.nodes.length ≤ t.cache.capacity + 1

/-! ## The invariant -/

/-- The list is in the order of the stamps, the highest first. -/
structure CacheInv (t : TrackedCache T) : Prop where
  index : Indexes Prod.fst (fun k => t.cache.cacheIter.lookup k) t.cache.cache
  value : ∀ k v, (k, v) ∈ t.cache.cache.values ↔ t.history.value k = some v
  order : t.cache.cache.values.Pairwise fun p q => t.stamp q.1 < t.stamp p.1
  past : ∀ p ∈ t.cache.cache.values, t.stamp p.1 < t.history.now
  room : t.cache.cache.nodes.length ≤ t.cache.capacity + 1

/-- An empty cache. -/
theorem inv_init (sessFlag : Bool) (capacity : Nat) :
    CacheInv (init sessFlag capacity : TrackedCache T) where
  index := Indexes.empty
  value _ _ := iff_of_false not_mem_nil (by simp [init])
  order := List.Pairwise.nil
  past _ hp := absurd hp not_mem_nil
  room := Nat.zero_le _

/-- What one call does to the cache. -/
inductive Does (c : KernelCache T) : CacheCall T → KernelCache T → Prop
  /-- The id is not there. -/
  | miss {key : UInt64} (hno : c.cacheIter.lookup key = none) : Does c (.get key) c
  /-- In a session a hit changes nothing. -/
  | stay {key : UInt64} (hsess : c.sessFlag = true) : Does c (.get key) c
  | hit {key : UInt64} {it : Nat} {v : T} (hsess : c.sessFlag = false)
      (hat : c.cacheIter.lookup key = some it) (hnode : (it, (key, v)) ∈ c.cache.nodes) :
      Does c (.get key) (c.toFront key it (key, v))
  /-- In a session an entry is overwritten where it is. -/
  | overwrite {key : UInt64} {it : Nat} (hsess : c.sessFlag = true)
      (hat : c.cacheIter.lookup key = some it) (value : T) :
      Does c (.set key value) { c with cache := c.cache.setAt it (key, value) }
  | renew {key : UInt64} {it : Nat} (hsess : c.sessFlag = false)
      (hat : c.cacheIter.lookup key = some it) (value : T) : Does c (.set key value)
        (KernelCache.toFront { c with cache := c.cache.setAt it (key, value) } key it (key, value))
  | enter {key : UInt64} (hno : c.cacheIter.lookup key = none)
      (hroom : c.cache.nodes.length ≤ c.capacity) (value : T) :
      Does c (.set key value) (c.enter key value)
  /-- The last entry makes room. -/
  | replace {key d : UInt64} {it : Nat} {v : T} (hno : c.cacheIter.lookup key = none)
      (hfull : c.capacity < c.cache.nodes.length) (hback : c.cache.back = some (it, (d, v)))
      (value : T) : Does c (.set key value) (KernelCache.enter
        { c with cache := c.cache.popBack, cacheIter := c.cacheIter.erase d } key value)

variable {t t' : TrackedCache T} {key : UInt64}

/-! ## One call -/

/-- The tracked cache after a call that left `c`. -/
def after (t : TrackedCache T) (e : CacheCall T) (c : KernelCache T) : TrackedCache T :=
  ⟨c, t.history.next t.cache.keys c.keys e⟩

variable {c : KernelCache T} {e : CacheCall T}

theorem stamp_of_ne (hsess : c.sessFlag = t.cache.sessFlag) {k : UInt64} (hk : k ≠ e.key) :
    (t.after e c).stamp k = t.stamp k := by
  unfold stamp after
  rw [hsess]
  cases e with
  | get key =>
    have hk : k ≠ key := hk
    show (if _ then t.history.born k else update t.history.used key t.history.now k) = _
    rw [update_of_ne hk]
  | set key value =>
    have hk : k ≠ key := hk
    show (if _ then (if _ then t.history.born else update t.history.born key t.history.now) k
      else update t.history.used key t.history.now k) = _
    rw [update_of_ne hk]
    cases (t.history.value key).isSome with
    | true => rfl
    | false =>
      show (if _ then update t.history.born key t.history.now k else _) = _
      rw [update_of_ne hk]

theorem stamp_used (hsess : c.sessFlag = false) : (t.after e c).stamp e.key = t.history.now := by
  unfold stamp after
  rw [hsess]
  cases e with
  | get key => exact update_self key _ _
  | set key value => exact update_self key _ _

theorem stamp_entered {value : T} (hno : t.history.value key = none) :
    (t.after (.set key value) c).stamp key = t.history.now := by
  unfold stamp after
  show (if _ then (if (t.history.value key).isSome then t.history.born
    else update t.history.born key t.history.now) key
      else update t.history.used key t.history.now key) = _
  rw [hno]
  show (if _ then update t.history.born key t.history.now key else _) = _
  rw [update_self, update_self]
  exact ite_self _

/-! ## All calls -/

theorem step_eq_some : step t e = some t' ↔ ∃ c, call t.cache e = some c ∧ t' = t.after e c := by
  unfold step
  rw [Option.map_eq_some_iff]
  exact exists_congr fun c => and_congr_right fun _ => eq_comm

/-- Within the capacity. -/
def Fits (t : TrackedCache T) : Prop := t.cache.cache.nodes.length ≤ t.cache.capacity

/-- No new id is set while the cache has as many entries as its capacity. -/
def Spares (t : TrackedCache T) : CacheCall T → Prop
  | .get _ => True
  | .set key _ => (t.history.value key).isSome ∨ t.cache.cache.nodes.length < t.cache.capacity

section

variable (h : CacheInv t)
include h

theorem CacheInv.nodup : t.cache.keys.Nodup := h.index.keys_nodup

theorem CacheInv.mem_keys :
    key ∈ t.cache.keys ↔ (t.history.value key).isSome = true := by
  rw [Option.isSome_iff_exists]
  constructor
  · intro hk
    obtain ⟨⟨k, v⟩, hp, rfl⟩ := mem_map.mp hk
    exact ⟨v, (h.value k v).mp hp⟩
  · intro ⟨v, hv⟩
    exact mem_map_of_mem ((h.value key v).mpr hv)

theorem CacheInv.lookup_cases (key : UInt64) :
    (t.cache.cacheIter.lookup key = none ∧ t.history.value key = none) ∨
      ∃ it v, t.cache.cacheIter.lookup key = some it ∧ (it, (key, v)) ∈ t.cache.cache.nodes ∧
        t.cache.cache.at? it = some (key, v) ∧ t.history.value key = some v := by
  cases hlookup : t.cache.cacheIter.lookup key with
  | none =>
    refine Or.inl ⟨rfl, Option.not_isSome_iff_eq_none.mp fun hsome => ?_⟩
    exact (h.index.eq_none_iff.mp hlookup) (h.mem_keys.mpr hsome)
  | some it =>
    obtain ⟨⟨k, v⟩, hnode, rfl⟩ := (h.index key it).mp hlookup
    exact Or.inr ⟨it, v, rfl, hnode, NodeList.at?_eq hnode,
      (h.value k v).mp (mem_values.mpr ⟨it, hnode⟩)⟩

/-- Every call does something: no lookup in the cache fails. -/
theorem CacheInv.does (e : CacheCall T) :
    ∃ c, call t.cache e = some c ∧ Does t.cache e c := by
  cases e with
  | get key =>
    show ∃ c, (t.cache.getCache key).map Prod.fst = some c ∧ _
    unfold KernelCache.getCache
    rcases h.lookup_cases key with ⟨hno, -⟩ | ⟨it, v, hat, hnode, hpair, -⟩
    · rw [hno]
      exact ⟨_, rfl, .miss hno⟩
    · rw [hat]
      simp only [hpair, bind_eq_bind, bind_some, map_some]
      cases hsess : t.cache.sessFlag with
      | true => exact ⟨_, rfl, .stay hsess⟩
      | false => exact ⟨_, rfl, .hit hsess hat hnode⟩
  | set key value =>
    show ∃ c, t.cache.setCache key value = some c ∧ _
    unfold KernelCache.setCache
    rcases h.lookup_cases key with ⟨hno, -⟩ | ⟨it, v, hat, hnode, hpair, -⟩
    · rw [hno]
      by_cases hfull : t.cache.capacity < t.cache.cache.nodes.length
      · simp only [if_pos hfull]
        unfold KernelCache.popLast
        cases hback : t.cache.cache.back with
        | none =>
          rw [getLast?_eq_none_iff.mp hback] at hfull
          exact absurd hfull (Nat.not_lt_zero _)
        | some p =>
          obtain ⟨it, d, v⟩ := p
          exact ⟨_, rfl, .replace hno hfull hback value⟩
      · simp only [if_neg hfull]
        exact ⟨_, rfl, .enter hno (Nat.le_of_not_lt hfull) value⟩
    · rw [hat]
      simp only [hpair, bind_eq_bind, bind_some]
      by_cases hsess : t.cache.sessFlag = true
      · rw [if_pos hsess]
        exact ⟨_, rfl, .overwrite hsess hat value⟩
      · rw [if_neg hsess]
        exact ⟨_, rfl, .renew (Bool.eq_false_iff.mpr hsess) hat value⟩

/-- An id that is called stands in front, the others behind it in their order. -/
theorem CacheInv.front {v : T} {rest : List (UInt64 × T)}
    (hindex : Indexes Prod.fst (fun k => c.cacheIter.lookup k) c.cache)
    (hroom : c.cache.nodes.length ≤ c.capacity + 1) (hsess : c.sessFlag = t.cache.sessFlag)
    (hvalues : c.cache.values = (key, v) :: rest) (hsub : rest.Sublist t.cache.cache.values)
    (hne : ∀ p ∈ rest, p.1 ≠ key)
    (he : e = .set key v ∨ e = .get key ∧ t.history.value key = some v)
    (hstamp : (t.after e c).stamp key = t.history.now) : CacheInv (t.after e c) := by
  have hkey : e.key = key := by
    rcases he with rfl | ⟨rfl, -⟩
    · rfl
    · rfl
  have hold : ∀ p ∈ rest, (t.after e c).stamp p.1 = t.stamp p.1 := fun p hp =>
    stamp_of_ne hsess (hkey ▸ hne p hp)
  have hpast : ∀ p ∈ rest, t.stamp p.1 < t.history.now := fun p hp => h.past p (hsub.mem hp)
  have hnow : (t.after e c).history.now = t.history.now + 1 := by
    rcases he with rfl | ⟨rfl, -⟩
    · rfl
    · rfl
  have hkeys : ∀ k, k ∈ c.keys ↔ k = key ∨ ∃ w, (k, w) ∈ rest := by
    intro k
    unfold KernelCache.keys
    rw [hvalues, map_cons, mem_cons, mem_map]
    exact or_congr_right ⟨fun ⟨p, hp, hk⟩ => ⟨p.2, hk ▸ hp⟩, fun ⟨w, hw⟩ => ⟨_, hw, rfl⟩⟩
  constructor
  · exact hindex
  · intro k w
    show (k, w) ∈ c.cache.values ↔ _
    rw [hvalues, mem_cons, Prod.mk.injEq]
    -- The key just used is in the cache with its value; any other is as it was, or evicted.
    by_cases hk : k = key
    · subst hk
      have hval : (t.after e c).history.value k = some v := by
        rcases he with rfl | ⟨rfl, hv⟩
        · exact if_pos rfl
        · exact (if_neg fun hand => hand.2 ((hkeys k).mpr (Or.inl rfl))).trans hv
      rw [hval, Option.some.injEq]
      constructor
      · rintro (⟨-, rfl⟩ | hw)
        · rfl
        · exact absurd rfl (hne _ hw)
      · rintro rfl
        exact Or.inl ⟨rfl, rfl⟩
    · have hval : (t.after e c).history.value k =
          if k ∈ t.cache.keys ∧ k ∉ c.keys then none else t.history.value k := by
        rcases he with rfl | ⟨rfl, -⟩
        · exact if_neg hk
        · rfl
      rw [hval]
      constructor
      · rintro (⟨rfl, -⟩ | hw)
        · exact absurd rfl hk
        · rw [if_neg fun hand => hand.2 ((hkeys k).mpr (Or.inr ⟨w, hw⟩))]
          exact (h.value k w).mp (hsub.mem hw)
      · intro hw
        split at hw
        next => cases hw
        next hstays =>
          have hmem : k ∈ c.keys := by
            by_contra hgone
            exact hstays ⟨h.mem_keys.mpr (by rw [hw]; rfl), hgone⟩
          obtain ⟨w', hw'⟩ := ((hkeys k).mp hmem).resolve_left hk
          have hsame := ((h.value k w').mp (hsub.mem hw')).symm.trans hw
          exact Or.inr (some.inj hsame ▸ hw')
  · show c.cache.values.Pairwise _
    rw [hvalues]
    refine pairwise_cons.mpr ⟨fun p hp => ?_, ?_⟩
    · rw [hstamp, hold p hp]
      exact hpast p hp
    · refine (h.order.sublist hsub).imp_of_mem fun {p q} hp hq hlt => ?_
      rw [hold p hp, hold q hq]
      exact hlt
  · intro p hp
    have hp : p ∈ c.cache.values := hp
    rw [hvalues] at hp
    rw [hnow]
    rcases mem_cons.mp hp with rfl | hp
    · rw [hstamp]
      exact Nat.lt_succ_self _
    · rw [hold p hp]
      exact Nat.lt_succ_of_lt (hpast p hp)
  · exact hroom

/-- A call that moves no node keeps the invariant. -/
theorem CacheInv.stay (hindex : Indexes Prod.fst (fun k => c.cacheIter.lookup k) c.cache)
    (hlength : c.cache.nodes.length = t.cache.cache.nodes.length)
    (hcapacity : c.capacity = t.cache.capacity)
    (hkeys : c.keys = t.cache.keys)
    (hvalue : ∀ k v, (k, v) ∈ c.cache.values ↔ (t.after e c).history.value k = some v)
    (hstamp : ∀ k ∈ t.cache.keys, (t.after e c).stamp k = t.stamp k) : CacheInv (t.after e c) := by
  have hnow : (t.after e c).history.now = t.history.now + 1 := by
    cases e with
    | get key => rfl
    | set key value => rfl
  constructor
  · exact hindex
  · exact hvalue
  · -- the stamps keep their order
    have hold : t.cache.keys.Pairwise fun j k => t.stamp k < t.stamp j :=
      pairwise_map.mpr h.order
    have horder : t.cache.keys.Pairwise fun j k =>
        (t.after e c).stamp k < (t.after e c).stamp j := by
      refine hold.imp_of_mem fun {j k} hj hk hlt => ?_
      rw [hstamp j hj, hstamp k hk]
      exact hlt
    rw [← hkeys] at horder
    exact pairwise_map.mp horder
  · intro p hp
    have hk : p.1 ∈ t.cache.keys := hkeys ▸ mem_map_of_mem hp
    obtain ⟨q, hq, hqp⟩ := mem_map.mp hk
    rw [hstamp p.1 hk, hnow, ← hqp]
    exact Nat.lt_succ_of_lt (h.past q hq)
  · show c.cache.nodes.length ≤ c.capacity + 1
    rw [hlength, hcapacity]
    exact h.room

theorem CacheInv.keep (hstamp : ∀ k ∈ t.cache.keys,
    (t.after (.get key) t.cache).stamp k = t.stamp k) : CacheInv (t.after (.get key) t.cache) := by
  refine h.stay h.index rfl rfl rfl (fun k v => ?_) hstamp
  show _ ↔ (if k ∈ t.cache.keys ∧ k ∉ t.cache.keys then none else t.history.value k) = some v
  rw [if_neg fun hand => hand.2 hand.1]
  exact h.value k v

/-- A call that moves a node to the front keeps the invariant, since its stamp is the latest. -/
theorem CacheInv.moved (hsess : t.cache.sessFlag = false) {it : Nat} {v w : T}
    (hat : t.cache.cacheIter.lookup key = some it) (hnode : (it, (key, w)) ∈ t.cache.cache.nodes)
    (he : e = .set key v ∨ e = .get key ∧ t.history.value key = some v) :
    CacheInv (t.after e (t.cache.toFront key it (key, v))) := by
  have hkey : e.key = key := by
    rcases he with rfl | ⟨rfl, -⟩
    · rfl
    · rfl
  have hindex : Indexes Prod.fst
      (fun k => (t.cache.toFront key it (key, v)).cacheIter.lookup k)
      (t.cache.toFront key it (key, v)).cache := by
    show Indexes _ (fun k => (t.cache.cacheIter.insert key _).lookup k) _
    rw [lookup_insert_eq]
    exact Indexes.toFront (x := (key, v)) h.index hat
  have hrest : (t.cache.cache.erase it).values =
      t.cache.cache.values.filter fun p => p.1 ≠ key := h.index.values_erase hat
  -- the pair goes to the front, the others keep their order
  have hvalues : (t.cache.toFront key it (key, v)).cache.values =
      (key, v) :: t.cache.cache.values.filter fun p => p.1 ≠ key := by
    rw [← hrest]
    rfl
  refine h.front hindex ?_ rfl hvalues filter_sublist (fun p hp => ?_) he ?_
  · have hless := NodeList.length_erase_lt hnode
    have hroom := h.room
    show (t.cache.cache.erase it).nodes.length + 1 ≤ t.cache.capacity + 1
    omega
  · exact of_decide_eq_true (mem_filter.mp hp).2
  · rw [← hkey]
    exact stamp_used hsess

/-- Every call keeps the invariant. -/
theorem CacheInv.does_after (hdoes : Does t.cache e c) :
    CacheInv (t.after e c) := by
  cases hdoes with
  | @miss key hno =>
    refine h.keep fun k hk => stamp_of_ne rfl fun heq => ?_
    have heq : k = key := heq
    exact h.index.eq_none_iff.mp hno (heq ▸ hk)
  | @stay key hsess =>
    refine h.keep fun k _ => ?_
    unfold stamp after
    rw [hsess]
    rfl
  | @hit key it v hsess hat hnode =>
    have hv := (h.value key v).mp (mem_values.mpr ⟨it, hnode⟩)
    exact h.moved hsess hat hnode (Or.inr ⟨rfl, hv⟩)
  | @overwrite key it hsess hat value =>
    have hvalues := h.index.values_setAt (x := (key, value)) hat
    have hkeys : KernelCache.keys { t.cache with cache := t.cache.cache.setAt it (key, value) } =
        t.cache.keys := by
      unfold KernelCache.keys
      rw [hvalues, map_map]
      refine map_congr_left fun p _ => ?_
      show (if p.1 = key then (key, value) else p).1 = p.1
      split
      next heq => exact heq.symm
      next => rfl
    have hin : key ∈ t.cache.keys := h.index.isSome_iff.mp ⟨it, hat⟩
    refine h.stay (h.index.setAt hat) (length_map _) rfl hkeys (fun k v => ?_) fun k hk => ?_
    · show (k, v) ∈ NodeList.values _ ↔ (if k = key then some value else if _ ∧ _ then none else
        t.history.value k) = some v
      rw [hvalues, mem_map]
      by_cases hk : k = key
      · subst hk
        rw [if_pos rfl, Option.some.injEq]
        constructor
        · intro ⟨p, _, hp⟩
          split at hp
          next => exact (Prod.mk.inj hp).2
          next hne => exact absurd (congrArg Prod.fst hp) hne
        · rintro rfl
          obtain ⟨p, hp, hpk⟩ := mem_map.mp hin
          exact ⟨p, hp, if_pos hpk⟩
      · rw [if_neg hk, if_neg fun hand => hand.2 (hkeys ▸ hand.1), ← h.value k v]
        constructor
        · intro ⟨p, hp, heq⟩
          split at heq
          next => exact absurd (congrArg Prod.fst heq).symm hk
          next => exact heq ▸ hp
        · exact fun hp => ⟨_, hp, if_neg hk⟩
    · unfold stamp after
      show (if t.cache.sessFlag then (if (t.history.value key).isSome then t.history.born else _) k
        else _) = if t.cache.sessFlag then _ else _
      rw [hsess, h.mem_keys.mp hin]
      rfl
  | @renew key it hsess hat value =>
    obtain ⟨it', w, hat', hnode, -, -⟩ := (h.lookup_cases key).resolve_left fun hno => by
      rw [hat] at hno
      cases hno.1
    obtain rfl : it = it' := some.inj (hat.symm.trans hat')
    have hmoved := h.moved hsess hat hnode (v := value) (e := .set key value) (Or.inl rfl)
    -- writing the pair before it is erased makes no difference
    have hsame : KernelCache.toFront { t.cache with cache := t.cache.cache.setAt it (key, value) }
        key it (key, value) = t.cache.toFront key it (key, value) := by
      unfold KernelCache.toFront NodeList.pushFront
      simp only [nodes_erase_setAt]
      rfl
    rw [hsame]
    exact hmoved
  | @enter key hno hroom value =>
    have habsent := h.index.eq_none_iff.mp hno
    have hnone := ((h.lookup_cases key).resolve_right fun ⟨it, v, hat, _⟩ => by
      rw [hno] at hat
      cases hat).2
    refine h.front ?_ (Nat.succ_le_succ hroom) rfl rfl (List.Sublist.refl _) (fun p hp heq => ?_)
      (Or.inl rfl) (stamp_entered hnone)
    · show Indexes _ (fun k => (t.cache.cacheIter.insert key _).lookup k) _
      rw [lookup_insert_eq]
      exact Indexes.pushFront (x := (key, value)) h.index hno
    · exact habsent (heq ▸ mem_map_of_mem hp)
  | @replace key d it v hno hfull hback value =>
    have habsent := h.index.eq_none_iff.mp hno
    have hnone := ((h.lookup_cases key).resolve_right fun ⟨it, v, hat, _⟩ => by
      rw [hno] at hat
      cases hat).2
    have hpop := h.index.popBack hback
    have hsub : t.cache.cache.popBack.values.Sublist t.cache.cache.values :=
      (dropLast_sublist _).map Prod.snd
    refine h.front ?_ ?_ rfl rfl hsub (fun p hp heq => ?_) (Or.inl rfl) (stamp_entered hnone)
    · show Indexes _ (fun k => ((t.cache.cacheIter.erase d).insert key _).lookup k) _
      rw [lookup_insert_eq, lookup_erase_eq]
      refine Indexes.pushFront (x := (key, value)) hpop ?_
      show update (fun k => t.cache.cacheIter.lookup k) d none key = none
      by_cases hkd : key = d
      · rw [hkd, update_self]
      · rw [update_of_ne hkd]
        exact hno
    · have hroom := h.room
      have hlast : t.cache.cache.popBack.nodes.length = t.cache.cache.nodes.length - 1 :=
        length_dropLast
      show t.cache.cache.popBack.nodes.length + 1 ≤ t.cache.capacity + 1
      omega
    · exact habsent (heq ▸ mem_map_of_mem (hsub.mem hp))

theorem CacheInv.of_step (hstep : t.step e = some t') :
    ∃ c, Does t.cache e c ∧ t' = t.after e c := by
  obtain ⟨c, hc, rfl⟩ := step_eq_some.mp hstep
  obtain ⟨c', hc', hdoes⟩ := h.does e
  obtain rfl := some.inj (hc.symm.trans hc')
  exact ⟨c, hdoes, rfl⟩

/-- The evicted entry is the one whose last use is the longest ago. -/
theorem CacheInv.evicted (hdoes : Does t.cache e c) {d : UInt64}
    (hd : d ∈ t.cache.keys) (hgone : d ∉ c.keys) {k : UInt64} (hk : k ≠ d)
    (hin : (t.history.value k).isSome) : t.stamp d < t.stamp k := by
  have hmoved : ∀ {key : UInt64} {it : Nat} {w : T}, t.cache.cacheIter.lookup key = some it →
      d ∈ (t.cache.toFront key it (key, w)).keys := by
    intro key it w hat
    show d ∈ key :: (t.cache.cache.erase it).values.map Prod.fst
    by_cases hdk : d = key
    · exact hdk ▸ mem_cons_self
    · obtain ⟨p, hp, rfl⟩ := mem_map.mp hd
      refine mem_cons_of_mem _ (mem_map_of_mem ?_)
      rw [h.index.values_erase hat]
      exact mem_filter.mpr ⟨hp, decide_eq_true hdk⟩
  cases hdoes with
  | miss _ | stay _ => exact absurd hd hgone
  | hit hsess hat hnode => exact absurd (hmoved hat) hgone
  | @overwrite key it hsess hat value =>
    refine absurd ?_ hgone
    unfold KernelCache.keys
    rw [h.index.values_setAt (x := (key, value)) hat]
    obtain ⟨p, hp, rfl⟩ := mem_map.mp hd
    refine mem_map.mpr ⟨_, mem_map_of_mem hp, ?_⟩
    split
    next heq => exact heq.symm
    next => rfl
  | @renew key it hsess hat value =>
    refine absurd ?_ hgone
    have hmem := hmoved (w := value) hat
    show d ∈ key ::
      (((t.cache.cache.setAt it (key, value)).erase it).nodes.map Prod.snd).map Prod.fst
    rw [nodes_erase_setAt]
    exact hmem
  | enter hno hroom value => exact absurd (mem_cons_of_mem _ hd) hgone
  | @replace key last it v hno hfull hback value =>
    -- the list but its end stays; what is gone is the end, and the stamps fall towards it
    obtain ⟨init, hinit⟩ := getLast?_eq_some_iff.mp hback
    have hvalues : t.cache.cache.values = t.cache.cache.popBack.values ++ [(last, v)] := by
      show t.cache.cache.nodes.map Prod.snd = t.cache.cache.nodes.dropLast.map Prod.snd ++ _
      rw [hinit, dropLast_concat, map_append]
      rfl
    have hlast : ∀ j ∈ t.cache.keys, j = last ∨ j ∈ t.cache.cache.popBack.values.map Prod.fst := by
      intro j hj
      unfold KernelCache.keys at hj
      rw [hvalues, map_append, mem_append] at hj
      exact hj.elim Or.inr fun hj => Or.inl (mem_singleton.mp hj)
    have hdl : d = last := (hlast d hd).resolve_right fun hmem =>
      hgone (mem_cons_of_mem _ hmem)
    have hkin := (hlast k (h.mem_keys.mpr hin)).resolve_left fun heq => hk (heq.trans hdl.symm)
    obtain ⟨p, hp, rfl⟩ := mem_map.mp hkin
    have horder := h.order
    rw [hvalues] at horder
    have hlt := (pairwise_append.mp horder).2.2 p hp (last, v) mem_cons_self
    rw [hdl]
    exact hlt

theorem CacheInv.keeps : Keeps t where
  index := h.index
  nodup := h.nodup
  defined e := by
    obtain ⟨c, hc, -⟩ := h.does e
    exact Option.isSome_iff_exists.mpr ⟨_, step_eq_some.mpr ⟨c, hc, rfl⟩⟩
  hit key := by
    unfold KernelCache.getCache
    rcases h.lookup_cases key with ⟨hno, hnone⟩ | ⟨it, v, hat, -, hpair, hv⟩
    · rw [hno, hnone]
      rfl
    · rw [hat, hv]
      simp only [hpair, bind_eq_bind, bind_some, map_some]
  evicted e t' hstep d hd hgone k hk hin := by
    obtain ⟨c, hdoes, rfl⟩ := h.of_step hstep
    exact h.evicted hdoes hd hgone hk hin
  room := h.room

/-- A call keeps the cache within its capacity just when it spares the room. -/
theorem CacheInv.fits_iff (hfits : Fits t) (e : CacheCall T) :
    Spares t e ↔ ∀ t', t.step e = some t' → Fits t' := by
  have hmoved : ∀ {key : UInt64} {it : Nat}, t.cache.cacheIter.lookup key = some it →
      (t.cache.cache.erase it).nodes.length + 1 ≤ t.cache.capacity := by
    intro key it hat
    obtain ⟨x, hx, -⟩ := (h.index key it).mp hat
    have hless := NodeList.length_erase_lt hx
    exact Nat.le_trans hless hfits
  have hknown : ∀ {key : UInt64} {it : Nat}, t.cache.cacheIter.lookup key = some it →
      (t.history.value key).isSome = true := by
    intro key it hat
    exact h.mem_keys.mp (h.index.isSome_iff.mp ⟨it, hat⟩)
  have hunknown : ∀ {key : UInt64}, t.cache.cacheIter.lookup key = none →
      ¬ (t.history.value key).isSome = true := by
    intro key hno hsome
    exact h.index.eq_none_iff.mp hno (h.mem_keys.mpr hsome)
  obtain ⟨c, hc, hdoes⟩ := h.does e
  have hstep : (∀ t', t.step e = some t' → Fits t') ↔ Fits (t.after e c) := by
    constructor
    · exact fun hall => hall _ (step_eq_some.mpr ⟨c, hc, rfl⟩)
    · intro hf t' ht'
      obtain ⟨c', hc', rfl⟩ := step_eq_some.mp ht'
      exact some.inj (hc.symm.trans hc') ▸ hf
  rw [hstep]
  -- only a new key makes the list longer
  cases hdoes with
  | miss _ | stay _ => exact iff_of_true trivial hfits
  | hit hsess hat hnode => exact iff_of_true trivial (hmoved hat)
  | overwrite hsess hat value =>
    refine iff_of_true (Or.inl (hknown hat)) ?_
    show (t.cache.cache.nodes.map _).length ≤ t.cache.capacity
    rw [length_map]
    exact hfits
  | @renew key it hsess hat value =>
    refine iff_of_true (Or.inl (hknown hat)) ?_
    show ((t.cache.cache.setAt it (key, value)).erase it).nodes.length + 1 ≤ t.cache.capacity
    rw [nodes_erase_setAt]
    exact hmoved hat
  | enter hno hroom value =>
    show (_ ∨ _ < _) ↔ _ + 1 ≤ _
    exact ⟨fun hsp => hsp.resolve_left (hunknown hno), Or.inr⟩
  | replace hno hfull hback value => exact absurd hfits (Nat.not_le_of_lt hfull)

end

/-- After any calls the declared policy holds but for the bound, which is one too high; the
capacity is kept to exactly in the runs that set no new id while the cache is full. -/
theorem kernel_cache_policy {T : Type} (sessFlag : Bool) (capacity : Nat)
    (calls : List (CacheCall T)) :
    Throughout step Keeps (TrackedCache.init sessFlag capacity) calls ∧
      (Throughout step (fun t => Keeps t ∧ Fits t) (TrackedCache.init sessFlag capacity) calls ↔
        Along step Spares (TrackedCache.init sessFlag capacity) calls) := by
  have hinv : ∀ (t : TrackedCache T) e t', CacheInv t → step t e = some t' → CacheInv t' := by
    intro t e t' h hstep
    obtain ⟨c, hdoes, rfl⟩ := h.of_step hstep
    exact h.does_after hdoes
  have hinit := TrackedCache.inv_init (T := T) sessFlag capacity
  constructor
  · have hany : Along step (fun _ _ => True) (TrackedCache.init sessFlag capacity) calls :=
      Along.of_forall calls _ fun _ _ => trivial
    have hall : Throughout step CacheInv (TrackedCache.init sessFlag capacity) calls :=
      Along.throughout (fun t e t' h _ hstep => hinv t e t' h hstep) calls hany hinit
    exact hall.mono fun t h => h.keeps
  · have hspares : ∀ (t : TrackedCache T) (e : CacheCall T), True → CacheInv t →
        Keeps t ∧ Fits t → (Spares t e ↔ ∀ t', step t e = some t' → Keeps t' ∧ Fits t') := by
      intro t e _ h hP
      rw [h.fits_iff hP.2 e]
      exact ⟨fun hall t' ht' => ⟨(hinv t e t' h ht').keeps, hall t' ht'⟩, fun hall t' ht' =>
        (hall t' ht').2⟩
    exact throughout_iff_along (fun t e t' _ h hstep => hinv t e t' h hstep) hspares calls
      (fun _ _ => trivial) hinit ⟨hinit.keeps, Nat.zero_le _⟩

/-- Two ids in a cache for one. -/
theorem capacity_exceeded : (run TrackedCache.step (TrackedCache.init false 1)
    [.set 1 'a', .set 2 'b']).map (fun t => (t.cache.keys, t.cache.capacity)) =
      some ([2, 1], 1) := by
  decide

end TrackedCache

end OpBase.Aicpu
