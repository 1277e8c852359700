import OpBase.Lib.Places
import OpBase.Lib.Run
import OpBase.Pool.BlockPool

/-!
# Every block is in one place

The block pool moves blocks between thread caches, the stores and the system
allocator and hands them out in between. This file shows that no interleaving
loses or duplicates one.

`Shape s content` ties the pool's linked structures to lists: `content` gives,
for each place, the blocks there, each block in exactly one (`Placed`), and the
heads, links, counts and headers of `s` spell these lists. `Layout` adds what
the callers and the threads inside an allocation hold.

> `block_partition`: in every state any number of threads can reach, each block
> is in one place, each cache list and free list is intact and of its own class,
> each count is the length of its list, and what was handed out is large enough.

The last part needs requests below `2 ^ 64 - 24` bytes: `MallocImpl` adds the
header to the size in a `size_t` (`malloc_wraps`).
-/

namespace OpBase.Pool

open List

open Function (update update_apply update_of_ne update_self)
open OpBase.Lib

/-! ## Size classes -/

theorem lt_maxStore_of_lt_blockCount {i k : Nat} (h : k < blockCount i) : i < maxStore := by
  unfold maxStore
  by_contra hi
  have hnone : storeIndex.getD i ⟨0, 0⟩ = ⟨0, 0⟩ :=
    getD_eq_default _ _ (by simp [storeIndex]; omega)
  rw [blockCount, hnone] at h
  exact Nat.not_lt_zero k h

theorem blockSize_eq {i : Nat} (h : i < maxStore) : blockSize i = 64 * 4 ^ i := by
  unfold maxStore at h
  interval_cases i <;> rfl

theorem storeIndexLoop_spec : ∀ (fuel n idx r : Nat), n ≤ fuel → r < 4 ^ (n + 1) →
    ∃ j ≤ n, storeIndexLoop fuel idx r = idx + j ∧ r < 4 ^ (j + 1)
  | 0, n, idx, r, hn, hr => ⟨0, by omega, rfl, by
      have : n = 0 := by omega
      subst this
      exact hr⟩
  | fuel + 1, n, idx, r, hn, hr => by
    unfold storeIndexLoop
    split
    next hlt => exact ⟨0, by omega, rfl, by omega⟩
    next hge =>
      have hshift : r >>> 2 = r / 4 := Nat.shiftRight_eq_div_pow r 2
      rw [hshift, if_neg (by omega)]
      cases n with
      | zero => omega
      | succ n =>
        have hr' : r / 4 < 4 ^ (n + 1) := by
          rw [Nat.div_lt_iff_lt_mul (by omega), ← pow_succ]
          exact hr
        obtain ⟨j, hj, hloop, hlt⟩ := storeIndexLoop_spec fuel n (idx + 1) (r / 4) (by omega) hr'
        refine ⟨j + 1, by omega, by rw [hloop]; omega, ?_⟩
        rw [pow_succ, ← Nat.div_lt_iff_lt_mul (by omega)]
        exact hlt

theorem getStoreIndex_spec {size i : Nat} (h : getStoreIndex size = some i) :
    i < maxStore ∧ size ≤ blockSize i := by
  unfold getStoreIndex at h
  split at h
  · cases h
  next hrange =>
    split at h
    next hsmall =>
      cases h
      rw [blockSize_eq (by decide)]
      exact ⟨by decide, hsmall⟩
    next hbig =>
      have hle : size ≤ 65536 := not_lt.mp (not_or.mp hrange).2
      have hlt : 64 < size := not_le.mp hbig
      have hshift : (size - 1) >>> 6 = (size - 1) / 64 := Nat.shiftRight_eq_div_pow (size - 1) 6
      obtain ⟨j, hj, hloop, hr⟩ :=
        storeIndexLoop_spec 32 4 1 ((size - 1) / 64) (by omega) (by omega)
      rw [hshift, hloop] at h
      have hidx : i = j + 1 := by
        have := Option.some.inj h
        omega
      have hi : j + 1 < maxStore := Nat.lt_of_le_of_lt (Nat.succ_le_succ hj) (by decide)
      rw [hidx, blockSize_eq hi]
      exact ⟨hi, by omega⟩

/-! ## Places -/

/-- Where a block can be: handed out, collected by a thread inside an allocation,
on a thread's list of a class, or on the free list of a class. A block of the
system allocator that is in no place is returned to it. -/
inductive Place where
  | held
  | taken (t : Thread)
  | cache (t : Thread) (i : Nat)
  | store (i : Nat)
deriving DecidableEq

/-- The places that are on no list of the pool's. -/
inductive Place.InHand : Place → Prop where
  | held : InHand .held
  | taken (t : Thread) : InHand (.taken t)

/-- A block index as the free list stores it. -/
def blockIdxOf : Option Block → Int
  | some (.store _ k) => k
  | _ => -1

namespace State

/-- The blocks that exist: those of the stores and those got from the system. -/
def Backed (s : State) : Block → Prop
  | .store i k => k < blockCount i
  | .sys addr => .sys addr ∈ s.sysUsed

/-- The block's memory is of class `i`. -/
def Fits (s : State) (i : Nat) (b : Block) : Prop :=
  i < maxStore ∧
    match b with
    | .store j _ => j = i
    | .sys addr => s.sysSize addr = blockSize i

/-- The block is of class `i` and its header says so. -/
def Classed (s : State) (i : Nat) (b : Block) : Prop :=
  s.Fits i b ∧ getBlockCacheIndex (s.header b) = i

/-- The link of a cache list. -/
def CacheNext (s : State) (b : Block) (o : Option Block) : Prop :=
  (s.header b).cacheExt = .link o

/-- The link of a free list. -/
def FreeNext (s : State) (b : Block) (o : Option Block) : Prop :=
  (s.header b).next = blockIdxOf o

theorem Fits.usable {s : State} {i : Nat} {b : Block} (h : s.Fits i b) :
    s.usable b = blockSize i := by
  cases b with
  | store j k => exact congrArg blockSize h.2
  | sys addr => exact h.2

end State

/-- What `BlockStore::Init` wrote into a header and nothing overwrites. -/
structure StoreHeader (i k : Nat) (h : Header) : Prop where
  magic : h.magic = magic
  tag : h.userTag = defaultTag + i
  idx : h.blockIdx = k

/-- The thread caches' lists hold the blocks of `content`. -/
structure Caches (s : State) (content : Place → List Block) : Prop where
  head : ∀ t i, (s.cache t).head i = (content (.cache t i)).head?
  count : ∀ t i, (s.cache t).count i = (content (.cache t i)).length
  linked : ∀ t i, Linked s.CacheNext (content (.cache t i))
  ofClass : ∀ t i, ∀ b ∈ content (.cache t i), s.Classed i b

/-- The stores' free lists hold the blocks of `content`. -/
structure Stores (s : State) (content : Place → List Block) : Prop where
  head : ∀ i, s.freeHead i = blockIdxOf (content (.store i)).head?
  linked : ∀ i, Linked s.FreeNext (content (.store i))
  ofClass : ∀ i, ∀ b ∈ content (.store i),
    (∃ k, b = .store i k) ∧ (s.header b).cacheExt = .notInCache

/-- The headers can be told apart by their tags. -/
structure Headers (s : State) : Prop where
  store : ∀ i k, k < blockCount i → StoreHeader i k (s.header (.store i k))
  sys : ∀ addr, .sys addr ∈ s.sysUsed → (s.header (.sys addr)).userTag = sysTag
  sysNodup : s.sysUsed.Nodup

/-- The lists of the pool hold the blocks of `content`, each block in one place. -/
structure Shape (s : State) (content : Place → List Block) : Prop where
  placed : Placed s.Backed content
  caches : Caches s content
  stores : Stores s content
  headers : Headers s

/-! ## What a list does not look at -/

section Frames

variable {s s' : State} {content content' : Place → List Block}

/-- The caches depend on their own lists only. -/
theorem Caches.frame (h : Caches s content)
    (hlist : ∀ t i, content' (.cache t i) = content (.cache t i)) (hcache : s'.cache = s.cache)
    (hheader : ∀ t i, ∀ b ∈ content (.cache t i), s'.header b = s.header b)
    (hfits : ∀ t i, ∀ b ∈ content (.cache t i), s.Fits i b → s'.Fits i b) :
    Caches s' content' := by
  constructor
  · intro t i
    rw [hlist, hcache]
    exact h.head t i
  · intro t i
    rw [hlist, hcache]
    exact h.count t i
  · intro t i
    rw [hlist]
    apply (h.linked t i).frame
    intro b hb o ho
    unfold State.CacheNext
    rw [hheader t i b hb]
    exact ho
  · intro t i b hb
    rw [hlist] at hb
    obtain ⟨hfit, hidx⟩ := h.ofClass t i b hb
    refine ⟨hfits t i b hb hfit, ?_⟩
    rw [hheader t i b hb]
    exact hidx

/-- The stores depend on their own lists only. -/
theorem Stores.frame (h : Stores s content)
    (hlist : ∀ i, content' (.store i) = content (.store i)) (hfree : s'.freeHead = s.freeHead)
    (hheader : ∀ i, ∀ b ∈ content (.store i), s'.header b = s.header b) :
    Stores s' content' := by
  constructor
  · intro i
    rw [hlist, hfree]
    exact h.head i
  · intro i
    rw [hlist]
    apply (h.linked i).frame
    intro b hb o ho
    unfold State.FreeNext
    rw [hheader i b hb]
    exact ho
  · intro i b hb
    rw [hlist] at hb
    rw [hheader i b hb]
    exact h.ofClass i b hb

end Frames

/-- The parts of a header that must survive while a block is in hand. -/
def SameTag (b : Block) (h h' : Header) : Prop :=
  h'.userTag = h.userTag ∧
    match b with
    | .store _ _ => h'.magic = h.magic ∧ h'.blockIdx = h.blockIdx
    | .sys _ => True

theorem sameTag_links (b : Block) (h : Header) (e : CacheExt) (n : Int) :
    SameTag b h { h with cacheExt := e, next := n } := by
  cases b with
  | store i k => exact ⟨rfl, rfl, rfl⟩
  | sys addr => exact ⟨rfl, trivial⟩

namespace State

variable (s : State) (t u : Thread) (i j : Nat) (b c : Block)

theorem cachePush_head : ((s.cachePush t i b).cache u).head j =
    if u = t ∧ j = i then some b else (s.cache u).head j := by
  by_cases hu : u = t
  · subst hu
    simp [cachePush, update_apply]
  · simp [cachePush, setHeader, hu]

theorem cachePush_count : ((s.cachePush t i b).cache u).count j =
    if u = t ∧ j = i then (s.cache t).count i + 1 else (s.cache u).count j := by
  by_cases hu : u = t
  · subst hu
    simp [cachePush, update_apply]
  · simp [cachePush, setHeader, hu]

theorem cachePop_head (n : Nat) : ((s.cachePop t i b n).cache u).head j =
    if u = t ∧ j = i then (s.header b).cacheExt.asHead else (s.cache u).head j := by
  by_cases hu : u = t
  · subst hu
    simp [cachePop, update_apply]
  · simp [cachePop, setHeader, handOut, hu]

theorem cachePop_count (n : Nat) : ((s.cachePop t i b n).cache u).count j =
    if u = t ∧ j = i then (s.cache t).count i - 1 else (s.cache u).count j := by
  by_cases hu : u = t
  · subst hu
    simp [cachePop, update_apply]
  · simp [cachePop, setHeader, handOut, hu]

theorem storeFree_eq {s : State} {i : Nat} {b : Block} (hmagic : (s.header b).magic = magic)
    (htag : (s.header b).userTag = defaultTag + i) : s.storeFree i b =
      { s.setHeader b { s.header b with cacheExt := .notInCache, next := s.freeHead i } with
        freeHead := update s.freeHead i (s.header b).blockIdx } := by
  unfold storeFree
  rw [if_neg (fun hne => hne.elim (· hmagic) (· htag))]

theorem setHeader_self (h : Header) : (s.setHeader b h).header b = h :=
  update_self ..

theorem setHeader_of_ne {b c : Block} (hc : c ≠ b) (h : Header) :
    (s.setHeader b h).header c = s.header c :=
  update_of_ne hc _ _

end State

variable {hd : Header}

theorem Headers.setHeader {s : State} {b : Block} (h : Headers s)
    (hsame : SameTag b (s.header b) hd) : Headers (s.setHeader b hd) := by
  constructor
  · intro j k hk
    obtain ⟨hmagic, htag, hidx⟩ := h.store j k hk
    by_cases hbk : Block.store j k = b
    · subst hbk
      rw [State.setHeader_self]
      obtain ⟨htag', hmagic', hidx'⟩ := hsame
      exact ⟨hmagic'.trans hmagic, htag'.trans htag, hidx'.trans hidx⟩
    · rw [s.setHeader_of_ne hbk]
      exact ⟨hmagic, htag, hidx⟩
  · intro addr haddr
    by_cases hba : Block.sys addr = b
    · subst hba
      rw [State.setHeader_self]
      exact hsame.1.trans (h.sys addr haddr)
    · rw [s.setHeader_of_ne hba]
      exact h.sys addr haddr
  · exact h.sysNodup

variable {addr : Nat}

theorem State.Fits.sysMalloc {s : State} {i bytes : Nat} {b : Block} (h : s.Fits i b)
    (hb : b ≠ .sys addr) : (s.sysMalloc addr hd bytes).Fits i b := by
  refine ⟨h.1, ?_⟩
  cases b with
  | store j k => exact h.2
  | sys a =>
    have ha : a ≠ addr := by simpa using hb
    exact (update_of_ne ha _ _).trans h.2

/-! ## Blocks in hand -/

theorem Place.InHand.ne_cache {p : Place} (hp : p.InHand) (t : Thread) (i : Nat) :
    Place.cache t i ≠ p := by
  intro he
  subst he
  cases hp

theorem Place.InHand.ne_store {p : Place} (hp : p.InHand) (i : Nat) : Place.store i ≠ p := by
  intro he
  subst he
  cases hp

namespace Shape

variable {s : State} {content : Place → List Block} {p q : Place} {b : Block}
  {xs ys : List Block} {t : Thread} {i : Nat}

section

variable (h : Shape s content)
include h

theorem ne_new (hnew : .sys addr ∉ s.sysUsed) (hb : b ∈ content p) : b ≠ .sys addr := by
  intro he
  subst he
  exact hnew (h.placed.known hb)

/-- The shape depends on these fields only. -/
theorem of_eq {s' : State} (hheader : s'.header = s.header)
    (hfree : s'.freeHead = s.freeHead) (hcache : s'.cache = s.cache)
    (hused : s'.sysUsed = s.sysUsed) (hsize : s'.sysSize = s.sysSize) : Shape s' content := by
  have hfits : ∀ i b, s.Fits i b → s'.Fits i b := by
    intro i b hf
    cases b with
    | store j k => exact hf
    | sys addr => exact ⟨hf.1, hsize ▸ hf.2⟩
  refine ⟨h.placed.congr fun b => ?_, ?_, ?_, ?_⟩
  · cases b with
    | store j k => exact Iff.rfl
    | sys addr => simp only [State.Backed, hused]
  · exact h.caches.frame (fun _ _ => rfl) hcache (fun _ _ b _ => congrFun hheader b)
      fun _ i b _ => hfits i b
  · exact h.stores.frame (fun _ => rfl) hfree fun _ b _ => congrFun hheader b
  · exact ⟨hheader ▸ h.headers.store, hheader ▸ hused ▸ h.headers.sys, hused ▸ h.headers.sysNodup⟩

section

variable (hp : p.InHand)
include hp

theorem cached_ne (hb : b ∈ content p) {c : Block}
    (hc : c ∈ content (.cache t i)) : c ≠ b := by
  intro he
  subst he
  exact hp.ne_cache t i (h.placed.only hc hb)

theorem stored_ne (hb : b ∈ content p) {c : Block}
    (hc : c ∈ content (.store i)) : c ≠ b := by
  intro he
  subst he
  exact hp.ne_store i (h.placed.only hc hb)

theorem setHeader (hb : b ∈ content p) (hsame : SameTag b (s.header b) hd) :
    Shape (s.setHeader b hd) content := by
  constructor
  · exact h.placed.congr fun c => by cases c <;> exact Iff.rfl
  · exact h.caches.frame (fun _ _ => rfl) rfl
      (fun t i c hc => s.setHeader_of_ne (h.cached_ne hp hb hc) hd) fun _ _ _ _ hf => hf
  · exact h.stores.frame (fun _ => rfl) rfl
      fun i c hc => s.setHeader_of_ne (h.stored_ne hp hb hc) hd
  · exact h.headers.setHeader hsame

theorem toHand (hq : q.InHand) (hpq : p ≠ q)
    (hxs : (content p).Perm (b :: xs)) (hys : ys.Perm (b :: content q)) :
    Shape s (update (update content p xs) q ys) := by
  refine ⟨h.placed.move hpq hxs hys, ?_, ?_, h.headers⟩
  · refine h.caches.frame (fun u j => ?_) rfl (fun _ _ _ _ => rfl) fun _ _ _ _ hf => hf
    rw [update_of_ne (hq.ne_cache u j), update_of_ne (hp.ne_cache u j)]
  · refine h.stores.frame (fun j => ?_) rfl fun _ _ _ => rfl
    rw [update_of_ne (hq.ne_store j), update_of_ne (hp.ne_store j)]

/-- A block in hand is put into the thread's cache. -/
theorem toCache (hxs : (content p).Perm (b :: xs))
    (hb : s.Classed i b) :
    Shape (s.cachePush t i b)
      (update (update content p xs) (.cache t i) (b :: content (.cache t i))) := by
  have hset := h.setHeader hp (hxs.mem_iff.mpr mem_cons_self)
    (sameTag_links b (s.header b) (.link ((s.cache t).head i)) (s.header b).next)
  have hlist : ∀ u j, update (update content p xs) (.cache t i) (b :: content (.cache t i))
      (.cache u j) = if u = t ∧ j = i then b :: content (.cache t i) else content (.cache u j) := by
    intro u j
    split
    next he => rw [he.1, he.2, update_self]
    next hne =>
      rw [update_of_ne (by simpa using hne), update_of_ne (hp.ne_cache u j)]
  have hown : (s.cachePush t i b).header b =
      { s.header b with cacheExt := .link ((s.cache t).head i) } := s.setHeader_self b _
  constructor
  · exact hset.placed.move (hp.ne_cache t i).symm hxs (List.Perm.refl _)
  · -- the cache list gets `b` in front, the others stay
    constructor
    · intro u j
      rw [hlist, State.cachePush_head]
      split
      next => rfl
      next => exact h.caches.head u j
    · intro u j
      rw [hlist, State.cachePush_count]
      split
      next => rw [length_cons, h.caches.count t i]
      next => exact h.caches.count u j
    · intro u j
      rw [hlist]
      split
      next =>
        refine ⟨?_, hset.caches.linked t i⟩
        unfold State.CacheNext
        rw [hown, ← h.caches.head]
      next => exact hset.caches.linked u j
    · intro u j c hc
      rw [hlist] at hc
      split at hc
      next he =>
        rw [he.2]
        rcases mem_cons.mp hc with hcb | hc
        · subst hcb
          refine ⟨hb.1, ?_⟩
          rw [hown]
          exact hb.2
        · exact hset.caches.ofClass t i c hc
      next => exact hset.caches.ofClass u j c hc
  · -- the free lists stay as they are
    refine hset.stores.frame (fun j => ?_) rfl fun _ _ _ => rfl
    rw [update_of_ne (by simp), update_of_ne (hp.ne_store j)]
  · exact ⟨hset.headers.store, hset.headers.sys, hset.headers.sysNodup⟩

/-- A block in hand is put back into its store. -/
theorem toStore {k : Nat}
    (hxs : (content p).Perm (.store i k :: xs)) :
    Shape (s.storeFree i (.store i k))
      (update (update content p xs) (.store i) (.store i k :: content (.store i))) := by
  have hbp : Block.store i k ∈ content p := hxs.mem_iff.mpr mem_cons_self
  obtain ⟨hmagic, htag, hidx⟩ := h.headers.store i k (h.placed.known hbp)
  have hset := h.setHeader hp hbp
    (sameTag_links (.store i k) (s.header (.store i k)) .notInCache (s.freeHead i))
  have hlist : ∀ j, update (update content p xs) (.store i) (.store i k :: content (.store i))
      (.store j) = if j = i then .store i k :: content (.store i) else content (.store j) := by
    intro j
    split
    next he => rw [he, update_self]
    next hne =>
      rw [update_of_ne (by simpa using hne), update_of_ne (hp.ne_store j)]
  rw [State.storeFree_eq hmagic htag]
  constructor
  · exact hset.placed.move (hp.ne_store i).symm hxs (List.Perm.refl _)
  · -- the caches stay as they are
    refine hset.caches.frame (fun u j => ?_) rfl (fun _ _ _ _ => rfl) fun _ _ _ _ hf => hf
    rw [update_of_ne (by simp), update_of_ne (hp.ne_cache u j)]
  · constructor
    · intro j
      rw [hlist]
      split
      next he =>
        rw [he]
        exact (update_self ..).trans hidx
      next hne => exact (update_of_ne hne _ _).trans (h.stores.head j)
    · intro j
      rw [hlist]
      split
      next =>
        refine ⟨?_, hset.stores.linked i⟩
        show (State.header (s.setHeader _ _) _).next = _
        rw [State.setHeader_self, ← h.stores.head]
      next => exact hset.stores.linked j
    · intro j c hc
      rw [hlist] at hc
      split at hc
      next he =>
        rw [he]
        rcases mem_cons.mp hc with hcb | hc
        · subst hcb
          exact ⟨⟨k, rfl⟩, congrArg Header.cacheExt (s.setHeader_self _ _)⟩
        · exact hset.stores.ofClass i c hc
      next => exact hset.stores.ofClass j c hc
  · exact ⟨hset.headers.store, hset.headers.sys, hset.headers.sysNodup⟩

theorem toSystem (hxs : (content p).Perm (.sys addr :: xs)) :
    Shape { s with sysUsed := s.sysUsed.erase (.sys addr) } (update content p xs) := by
  constructor
  · refine (h.placed.remove hxs).congr fun c => ?_
    cases c with
    | store j k =>
      show k < blockCount j ↔ _
      simp [State.Backed]
    | sys a =>
      show .sys a ∈ s.sysUsed.erase (.sys addr) ↔ _
      rw [h.headers.sysNodup.mem_erase_iff]
      exact Iff.rfl
  · exact h.caches.frame (fun u j => update_of_ne (hp.ne_cache u j) _ _) rfl
      (fun _ _ _ _ => rfl) fun _ _ _ _ hf => hf
  · exact h.stores.frame (fun j => update_of_ne (hp.ne_store j) _ _) rfl fun _ _ _ => rfl
  · exact ⟨h.headers.store, fun a ha => h.headers.sys a (mem_of_mem_erase ha),
      h.headers.sysNodup.erase _⟩

end

/-- The first block of a store is taken. -/
theorem fromStore (hq : q.InHand) (hxs : content (.store i) = b :: xs)
    (hys : ys.Perm (b :: content q)) :
    Shape { s with freeHead := update s.freeHead i (s.header b).next }
      (update (update content (.store i) xs) q ys) := by
  -- list `i` loses its head, the others stay
  have hlist : ∀ j, update (update content (.store i) xs) q ys (.store j) =
      if j = i then xs else content (.store j) := by
    intro j
    rw [update_of_ne (hq.ne_store j)]
    split
    next he => rw [he, update_self]
    next hne => rw [update_of_ne (by simpa using hne)]
  have hlinked := h.stores.linked i
  rw [hxs] at hlinked
  constructor
  · exact h.placed.move (hq.ne_store i) (hxs ▸ List.Perm.refl _) hys
  · refine h.caches.frame (fun u j => ?_) rfl (fun _ _ _ _ => rfl) fun _ _ _ _ hf => hf
    rw [update_of_ne (hq.ne_cache u j), update_of_ne (by simp)]
  · constructor
    · intro j
      rw [hlist]
      split
      next he =>
        rw [he]
        exact (update_self ..).trans hlinked.1
      next hne => exact (update_of_ne hne _ _).trans (h.stores.head j)
    · intro j
      rw [hlist]
      split
      next => exact hlinked.2
      next => exact h.stores.linked j
    · intro j c hc
      rw [hlist] at hc
      split at hc
      next he =>
        rw [he]
        exact h.stores.ofClass i c (hxs ▸ mem_cons_of_mem b hc)
      next => exact h.stores.ofClass j c hc
  · exact ⟨h.headers.store, h.headers.sys, h.headers.sysNodup⟩

/-- `BlockStore::Alloc` takes the front of the free list. -/
theorem storeAlloc_cases (i : Nat) :
    (s.storeAlloc i = none ∧ content (.store i) = []) ∨
    ∃ k xs, content (.store i) = .store i k :: xs ∧ s.storeAlloc i = some (.store i k,
      { s with freeHead := update s.freeHead i (s.header (.store i k)).next }) := by
  have hhead := h.stores.head i
  cases hc : content (.store i) with
  | nil =>
    rw [hc] at hhead
    exact Or.inl ⟨if_pos hhead, rfl⟩
  | cons b xs =>
    have hb : b ∈ content (.store i) := hc ▸ mem_cons_self
    obtain ⟨⟨k, hk⟩, -⟩ := h.stores.ofClass i b hb
    subst hk
    have hlt : k < blockCount i := h.placed.known hb
    replace hhead : s.freeHead i = (k : Int) := by rw [hhead, hc]; rfl
    refine Or.inr ⟨k, xs, rfl, ?_⟩
    have hget : State.getHeader i (k : Int) = some (.store i k) := by
      unfold State.getHeader
      rw [if_neg (by omega), Int.toNat_natCast]
    unfold State.storeAlloc
    rw [hhead, if_neg (by omega), hget]

/-- The front block of a thread's list is handed out. -/
theorem fromCache {n : Nat} (hxs : content (.cache t i) = b :: xs) :
    Shape (s.cachePop t i b n)
      (update (update content (.cache t i) xs) .held (b :: content .held)) := by
  have hb : b ∈ content (.cache t i) := hxs ▸ mem_cons_self
  have hlist : ∀ u j, update (update content (.cache t i) xs) .held (b :: content .held)
      (.cache u j) = if u = t ∧ j = i then xs else content (.cache u j) := by
    intro u j
    rw [update_of_ne (by simp)]
    split
    next he => rw [he.1, he.2, update_self]
    next hne => rw [update_of_ne (by simpa using hne)]
  have hlinked := h.caches.linked t i
  have hnodup := h.placed.nodup (.cache t i)
  rw [hxs] at hlinked hnodup
  -- the other blocks keep their headers
  have hother : ∀ {u j} {c : Block}, c ∈ content (.cache u j) → ¬ (u = t ∧ j = i) ∨ c ∈ xs →
      (s.cachePop t i b n).header c = s.header c := by
    intro u j c hc hcase
    refine s.setHeader_of_ne ?_ _
    intro he
    subst he
    rcases hcase with hne | hmem
    · have := h.placed.only hc hb
      simp only [Place.cache.injEq] at this
      exact hne this
    · exact (nodup_cons.mp hnodup).1 hmem
  have hrest : ∀ {c}, c ∈ xs → c ∈ content (.cache t i) := fun hc =>
    hxs ▸ mem_cons_of_mem b hc
  have hnext : (s.header b).cacheExt.asHead = xs.head? := by rw [hlinked.1]; rfl
  have htag : SameTag b (s.header b) { s.header b with cacheExt := .cache t } :=
    sameTag_links b (s.header b) (.cache t) (s.header b).next
  have hstored : ∀ {j c}, c ∈ content (.store j) → c ≠ b := by
    intro j c hc he
    subst he
    cases h.placed.only hc hb
  constructor
  · refine (h.placed.move (by simp) (hxs ▸ List.Perm.refl _) (List.Perm.refl _)).congr fun c => ?_
    cases c <;> exact Iff.rfl
  · constructor
    · intro u j
      rw [hlist, State.cachePop_head, hnext]
      split
      next => rfl
      next => exact h.caches.head u j
    · intro u j
      rw [hlist, State.cachePop_count, h.caches.count t i, hxs]
      split
      next => rfl
      next => exact h.caches.count u j
    · intro u j
      rw [hlist]
      split
      next he =>
        apply hlinked.2.frame
        intro c hc o ho
        unfold State.CacheNext
        rw [hother (hrest hc) (Or.inr hc)]
        exact ho
      next hne =>
        apply (h.caches.linked u j).frame
        intro c hc o ho
        unfold State.CacheNext
        rw [hother hc (Or.inl hne)]
        exact ho
    · intro u j c hc
      rw [hlist] at hc
      split at hc
      next he =>
        obtain ⟨hfit, hidx⟩ := h.caches.ofClass t i c (hrest hc)
        rw [he.2]
        exact ⟨hfit, by rw [hother (hrest hc) (Or.inr hc)]; exact hidx⟩
      next hne =>
        obtain ⟨hfit, hidx⟩ := h.caches.ofClass u j c hc
        exact ⟨hfit, by rw [hother hc (Or.inl hne)]; exact hidx⟩
  · refine h.stores.frame (fun j => ?_) rfl fun j c hc => s.setHeader_of_ne (hstored hc) _
    rw [update_of_ne (by simp), update_of_ne (by simp)]
  · have hset := h.headers.setHeader htag
    exact ⟨hset.store, hset.sys, hset.sysNodup⟩

/-- A block of the system is taken. -/
theorem fromSystem {bytes : Nat} (hq : q.InHand) (hnew : .sys addr ∉ s.sysUsed)
    (htag : hd.userTag = sysTag) (hys : ys.Perm (.sys addr :: content q)) :
    Shape (s.sysMalloc addr hd bytes) (update content q ys) := by
  have hne : ∀ {r c}, c ∈ content r → c ≠ .sys addr := h.ne_new hnew
  constructor
  · have hout : ¬ s.Backed (.sys addr) := hnew
    refine (h.placed.put hout hys).congr fun c => ?_
    cases c with
    | store j k => simp [State.Backed]
    | sys a =>
      show .sys a ∈ Block.sys addr :: s.sysUsed ↔ _
      rw [mem_cons]
      exact Iff.rfl
  · refine h.caches.frame (fun u j => update_of_ne (hq.ne_cache u j) _ _) rfl
      (fun u j c hc => s.setHeader_of_ne (hne hc) hd) fun u j c hc hf => ?_
    exact hf.sysMalloc (hne hc)
  · exact h.stores.frame (fun j => update_of_ne (hq.ne_store j) _ _) rfl
      fun j c hc => s.setHeader_of_ne (hne hc) hd
  · constructor
    · intro i k hk
      have hsame : (s.sysMalloc addr hd bytes).header (.store i k) = s.header (.store i k) :=
        s.setHeader_of_ne (nofun : Block.store i k ≠ .sys addr) hd
      rw [hsame]
      exact h.headers.store i k hk
    · intro a ha
      by_cases haddr : a = addr
      · subst haddr
        exact (congrArg Header.userTag (s.setHeader_self (.sys a) hd)).trans htag
      · have hsys : Block.sys a ≠ .sys addr := by simpa using haddr
        have hsame : (s.sysMalloc addr hd bytes).header (.sys a) = s.header (.sys a) :=
          s.setHeader_of_ne hsys hd
        rw [hsame]
        exact h.headers.sys a ((mem_cons.mp ha).resolve_left hsys)
    · exact nodup_cons.mpr ⟨hnew, h.headers.sysNodup⟩

end

end Shape

/-! ## What a call does to the rest -/

/-- Between `s` and `s'` blocks went to or from the hand `p`, and no header but
those of `bs` was written. -/
structure Local (p : Place) (bs : List Block) (s s' : State)
    (content content' : Place → List Block) : Prop where
  shape : Shape s' content'
  hands : ∀ q, q.InHand → q ≠ p → content' q = content q
  header : ∀ c, c ∉ bs → s'.header c = s.header c
  held : s'.held = s.held
  pc : s'.pc = s.pc
  sysSize : s'.sysSize = s.sysSize

section Calls

variable {s : State} {content : Place → List Block} {p : Place} {b : Block}
  {xs : List Block} {t : Thread} {i : Nat}

theorem Shape.storeIdx (h : Shape s content) {k : Nat} (hk : k < blockCount i) :
    (s.header (.store i k)).userTag ≠ sysTag ∧ getBlockCacheIndex (s.header (.store i k)) = i := by
  have hi := lt_maxStore_of_lt_blockCount hk
  have htag := (h.headers.store i k hk).tag
  have hne : (s.header (.store i k)).userTag ≠ sysTag := by
    rw [htag]
    unfold maxStore at hi
    unfold defaultTag sysTag
    omega
  refine ⟨hne, ?_⟩
  unfold getBlockCacheIndex
  rw [if_pos hne, htag]
  push_cast
  omega

section

variable (h : Shape s content) (hp : p.InHand) (hxs : (content p).Perm (b :: xs))
include h hp hxs

/-- `FreeImpl` puts a block in hand back where it came from. -/
theorem Shape.poolFree :
    ∃ content', Local p [b] s (s.poolFree b) content content' ∧ content' p = xs := by
  have hb : s.Backed b := h.placed.known (hxs.mem_iff.mpr mem_cons_self)
  cases b with
  | store i k =>
    obtain ⟨hne, hidx⟩ := h.storeIdx hb
    have hi := lt_maxStore_of_lt_blockCount hb
    have hhd := h.headers.store i k hb
    have heq : s.poolFree (.store i k) = s.storeFree i (.store i k) := by
      unfold State.poolFree
      rw [if_neg hne, hhd.tag, Nat.add_sub_cancel_left, if_neg (by omega)]
    refine ⟨_, ⟨heq ▸ h.toStore hp hxs, ?_, ?_, ?_, ?_, ?_⟩, ?_⟩
    · intro q hq hqp
      rw [update_of_ne (hq.ne_store i).symm, update_of_ne hqp]
    · intro c hc
      rw [heq, State.storeFree_eq hhd.magic hhd.tag]
      exact s.setHeader_of_ne (by simpa using hc) _
    · rw [heq, State.storeFree_eq hhd.magic hhd.tag]
      rfl
    · rw [heq, State.storeFree_eq hhd.magic hhd.tag]
      rfl
    · rw [heq, State.storeFree_eq hhd.magic hhd.tag]
      rfl
    · rw [update_of_ne (hp.ne_store i).symm, update_self]
  | sys addr =>
    have heq : s.poolFree (.sys addr) = { s with sysUsed := s.sysUsed.erase (.sys addr) } :=
      if_pos (h.headers.sys addr hb)
    rw [heq]
    refine ⟨_, ⟨h.toSystem hp hxs, ?_, fun _ _ => rfl, rfl, rfl, rfl⟩, update_self ..⟩
    intro q _ hqp
    rw [update_of_ne hqp]

theorem Shape.cachePush (hb : s.Classed i b) :
    ∃ content', Local p [b] s (s.cachePush t i b) content content' ∧ content' p = xs := by
  refine ⟨_, ⟨h.toCache hp hxs hb, ?_, ?_, rfl, rfl, rfl⟩, ?_⟩
  · intro q hq hqp
    rw [update_of_ne (hq.ne_cache t i).symm, update_of_ne hqp]
  · exact fun c hc => s.setHeader_of_ne (by simpa using hc) _
  · rw [update_of_ne (hp.ne_cache t i).symm, update_self]

/-- `CacheFreeImpl` keeps a block in hand or passes it on to `FreeImpl`. -/
theorem Shape.cacheFree (hclass : (s.header b).cacheExt = .notInCache ∨ ∃ i, s.Classed i b) :
    ∃ content', Local p [b] s (s.cacheFree t b) content content' ∧ content' p = xs := by
  unfold State.cacheFree
  by_cases hext : (s.header b).cacheExt = .notInCache
  · rw [if_pos hext]
    exact h.poolFree hp hxs
  · obtain ⟨i, hfit, hidx⟩ := hclass.resolve_left hext
    have hi := hfit.1
    rw [if_neg hext, hidx, if_neg (by omega), Int.toNat_natCast]
    split
    next => exact h.poolFree hp hxs
    next => exact h.cachePush hp hxs ⟨hfit, hidx⟩

end

/-- The loop of `BatchMatchImpl` under the lock collects blocks of its class. -/
theorem Shape.batchStore (hi : i < maxStore) :
    ∀ (n : Nat) {s : State} {content : Place → List Block},
    Shape s content → (∀ b ∈ content (.taken t), s.Fits i b) →
    ∃ content', Local (.taken t) [] s (State.batchStore i n s (content (.taken t))).1
        content content' ∧
      content' (.taken t) = (State.batchStore i n s (content (.taken t))).2 ∧
      ∀ b ∈ content' (.taken t), s.Fits i b
  | 0, _, content, h, hfit =>
    ⟨content, ⟨h, fun _ _ _ => rfl, fun _ _ => rfl, rfl, rfl, rfl⟩, rfl, hfit⟩
  | n + 1, s, content, h, hfit => by
    unfold State.batchStore
    rcases h.storeAlloc_cases i with ⟨hnone, -⟩ | ⟨k, xs, hxs, hsome⟩
    · rw [hnone]
      exact ⟨content, ⟨h, fun _ _ _ => rfl, fun _ _ => rfl, rfl, rfl, rfl⟩, rfl, hfit⟩
    · rw [hsome]
      have hmove := h.fromStore (Place.InHand.taken t) hxs
        (perm_append_singleton (Block.store i k) (content (.taken t)))
      have hself : update (update content (.store i) xs) (.taken t)
          (content (.taken t) ++ [.store i k]) (.taken t) = content (.taken t) ++ [.store i k] :=
        update_self ..
      have hfit' : ∀ b ∈ content (.taken t) ++ [Block.store i k], s.Fits i b := by
        intro b hb
        rcases mem_append.mp hb with hb | hb
        · exact hfit b hb
        · rw [mem_singleton.mp hb]
          exact ⟨hi, rfl⟩
      obtain ⟨content', hloc, htaken, hall⟩ := batchStore hi n hmove (by rw [hself]; exact hfit')
      rw [hself] at hloc htaken
      refine ⟨content', ⟨hloc.shape, ?_, hloc.header, hloc.held, hloc.pc, hloc.sysSize⟩,
        htaken, hall⟩
      intro q hq hqp
      rw [hloc.hands q hq hqp, update_of_ne hqp, update_of_ne (hq.ne_store i).symm]

/-- After `PoolAlloc` has written a block's header, the header tells its class. -/
theorem Shape.stamp_classed (h : Shape s content) (hb : s.Backed b) (hfit : s.Fits i b) :
    (s.stamp t i b).Classed i b := by
  refine ⟨hfit, ?_⟩
  rw [show (s.stamp t i b).header b = _ from s.setHeader_self b _]
  cases b with
  | store j k =>
    obtain ⟨hne, hidx⟩ := h.storeIdx hb
    rw [if_neg hne, ← hfit.2]
    exact hidx
  | sys addr =>
    unfold getBlockCacheIndex
    simp only [h.headers.sys addr hb, ne_eq, not_true_eq_false, if_false, if_true]

theorem Shape.stamp (h : Shape s content) (hp : p.InHand) (hb : b ∈ content p) :
    Shape (s.stamp t i b) content := by
  refine h.setHeader hp hb ⟨rfl, ?_⟩
  cases b with
  | store j k =>
    obtain ⟨hne, -⟩ := h.storeIdx (i := j) (k := k) (h.placed.known hb)
    exact ⟨rfl, if_neg hne⟩
  | sys addr => trivial

/-- The loop of `PoolAlloc` puts all but the first block on the thread's list. -/
theorem Shape.linkRest : ∀ (bs : List Block) {s : State} {content : Place → List Block},
    Shape s content → content (.taken t) = b :: bs → (∀ c ∈ bs, s.Fits i c) →
    ∃ content', Local (.taken t) bs s (s.linkRest t i bs) content content' ∧
      content' (.taken t) = [b]
  | [], _, content, h, hbs, _ =>
    ⟨content, ⟨h, fun _ _ _ => rfl, fun _ _ => rfl, rfl, rfl, rfl⟩, hbs⟩
  | c :: bs, s, content, h, hbs, hfit => by
    have hc : c ∈ content (.taken t) := by rw [hbs]; simp
    have hstamp := h.stamp (t := t) (i := i) (Place.InHand.taken t) hc
    -- `c` is taken out of the hand and pushed; `b` stays in it to the end.
    have hperm : (content (.taken t)).Perm (c :: b :: bs) := hbs ▸ List.Perm.swap c b bs
    obtain ⟨mid, hloc, hmid⟩ := hstamp.cachePush (t := t) (Place.InHand.taken t) hperm
      (h.stamp_classed (h.placed.known hc) (hfit c mem_cons_self))
    obtain ⟨content', hloc', hlast⟩ := linkRest bs hloc.shape hmid fun d hd =>
      hfit d (mem_cons_of_mem c hd)
    refine ⟨content', ⟨hloc'.shape, ?_, ?_, ?_, ?_, ?_⟩, hlast⟩
    · exact fun q hq hqp => (hloc'.hands q hq hqp).trans (hloc.hands q hq hqp)
    · intro d hd
      rw [mem_cons, not_or] at hd
      obtain ⟨hdc, hdbs⟩ := hd
      exact (hloc'.header d hdbs).trans ((hloc.header d (by simpa using hdc)).trans
        (s.setHeader_of_ne hdc _))
    · exact hloc'.held.trans hloc.held
    · exact hloc'.pc.trans hloc.pc
    · exact hloc'.sysSize.trans hloc.sysSize

end Calls

/-! ## Steps -/

variable {pc : Pc}

namespace State

/-- What a thread inside an allocation knows of its request and its blocks. -/
def PcOk (s : State) : Pc → Prop
  | .idle => True
  | .sysMalloc size => headerSize + size < 2 ^ 64
  | .batch i size addrList => i < maxStore ∧ size ≤ blockSize i ∧ ∀ b ∈ addrList, s.Fits i b
  | .link i size addrList => i < maxStore ∧ size ≤ blockSize i ∧ ∀ b ∈ addrList, s.Fits i b

/-- A block that was handed out is large enough, and its header tells how to free it. -/
def HeldOk (s : State) (b : Block) (size : Nat) : Prop :=
  size ≤ s.usable b ∧ ((s.header b).cacheExt = .notInCache ∨ ∃ i, s.Classed i b)

theorem PcOk.frame {s s' : State} (h : s.PcOk pc)
    (hfits : ∀ i, ∀ b ∈ pc.addrList, s.Fits i b → s'.Fits i b) : s'.PcOk pc := by
  cases pc with
  | idle => trivial
  | sysMalloc size => exact h
  | batch i size l => exact ⟨h.1, h.2.1, fun b hb => hfits i b hb (h.2.2 b hb)⟩
  | link i size l => exact ⟨h.1, h.2.1, fun b hb => hfits i b hb (h.2.2 b hb)⟩

theorem HeldOk.frame {s s' : State} {b : Block} {size : Nat} (h : s.HeldOk b size)
    (hheader : s'.header b = s.header b) (husable : s'.usable b = s.usable b)
    (hfits : ∀ i, s.Fits i b → s'.Fits i b) : s'.HeldOk b size := by
  refine ⟨husable ▸ h.1, ?_⟩
  rcases h.2 with hext | ⟨i, hfit, hidx⟩
  · exact Or.inl (hheader ▸ hext)
  · exact Or.inr ⟨i, hfits i hfit, hheader ▸ hidx⟩

theorem fits_of_sysSize {s s' : State} (h : s'.sysSize = s.sysSize) {i : Nat} {b : Block}
    (hfit : s.Fits i b) : s'.Fits i b := by
  cases b with
  | store j k => exact hfit
  | sys addr => exact ⟨hfit.1, h ▸ hfit.2⟩

theorem usable_of_sysSize {s s' : State} (h : s'.sysSize = s.sysSize) (b : Block) :
    s'.usable b = s.usable b := by
  cases b with
  | store j k => rfl
  | sys addr => exact congrFun h addr

end State

/-- Where every block is, callers and threads inside an allocation included. -/
structure Layout (s : State) (content : Place → List Block) : Prop where
  shape : Shape s content
  held : content .held = s.held.map Prod.fst
  taken : ∀ t, content (.taken t) = (s.pc t).addrList
  pcOk : ∀ t, s.PcOk (s.pc t)
  heldOk : ∀ b size, (b, size) ∈ s.held → s.HeldOk b size

namespace Layout

variable {s : State} {content : Place → List Block} {t : Thread} {i size : Nat}
  {answer : Option (Nat × Header)} {addrList : List Block}

section

variable (h : Layout s content)
include h

theorem mem_held {b : Block} {n : Nat} (hb : (b, n) ∈ s.held) :
    b ∈ content .held := by
  rw [h.held]
  exact mem_map_of_mem hb

theorem setPc (hlist : pc.addrList = (s.pc t).addrList) (hok : s.PcOk pc) :
    Layout (s.setPc t pc) content := by
  have hpc : ∀ u, (s.setPc t pc).pc u = if u = t then pc else s.pc u := fun u => by
    simp [State.setPc, update_apply]
  refine ⟨h.shape.of_eq rfl rfl rfl rfl rfl, h.held, ?_, ?_, ?_⟩
  · intro u
    rw [hpc, h.taken]
    split
    next he => rw [he, hlist]
    next => rfl
  · intro u
    rw [hpc]
    split
    next => exact hok.frame fun _ _ _ hf => hf
    next => exact (h.pcOk u).frame fun _ _ _ hf => hf
  · exact fun b n hb => (h.heldOk b n hb).frame rfl (State.usable_of_sysSize rfl b) fun _ hf => hf

theorem cachePop {b : Block} (hhead : (s.cache t).head i = some b)
    (hsize : size ≤ blockSize i) : ∃ content', Layout (s.cachePop t i b size) content' := by
  rw [h.shape.caches.head] at hhead
  obtain ⟨xs, hxs⟩ := head?_eq_some_iff.mp hhead
  have hb : b ∈ content (.cache t i) := hxs ▸ mem_cons_self
  obtain ⟨hfit, hidx⟩ := h.shape.caches.ofClass t i b hb
  have hown : (s.cachePop t i b size).header b = { s.header b with cacheExt := .cache t } :=
    s.setHeader_self b _
  refine ⟨_, ⟨h.shape.fromCache hxs, ?_, ?_, ?_, ?_⟩⟩
  · rw [update_self, h.held]
    rfl
  · intro u
    rw [update_of_ne (by simp), update_of_ne (by simp)]
    exact h.taken u
  · exact fun u => (h.pcOk u).frame fun _ _ _ hf => hf
  · intro c n hc
    rcases mem_cons.mp hc with hc | hc
    · cases hc
      refine ⟨?_, Or.inr ⟨i, hfit, by rw [hown]; exact hidx⟩⟩
      rw [show (s.cachePop t i b size).usable b = s.usable b from State.usable_of_sysSize rfl b,
        hfit.usable]
      exact hsize
    · have hne : c ≠ b := by
        intro he
        subst he
        cases h.shape.placed.only (h.mem_held hc) hb
      exact (h.heldOk c n hc).frame (s.setHeader_of_ne hne _) (State.usable_of_sysSize rfl c)
        fun _ hf => hf

/-- `MallocImpl`, up to the call of `std::malloc`. -/
theorem malloc (hidle : (s.pc t).isIdle)
    (hsize : headerSize + size < 2 ^ 64) : ∃ content', Layout (s.malloc t size) content' := by
  have hnil : (s.pc t).addrList = [] := by
    cases hpc : s.pc t with
    | idle => rfl
    | _ => rw [hpc] at hidle; cases hidle
  have hsys : Layout (s.setPc t (.sysMalloc size)) content := h.setPc hnil.symm hsize
  unfold State.malloc
  cases hidx : getStoreIndex size with
  | none => exact ⟨content, hsys⟩
  | some i =>
    obtain ⟨-, hfit⟩ := getStoreIndex_spec hidx
    rcases h.shape.storeAlloc_cases i with ⟨hnone, -⟩ | ⟨k, xs, hxs, hsome⟩
    · rw [Option.bind_some, hnone]
      exact ⟨content, hsys⟩
    · rw [Option.bind_some, hsome]
      have hb : Block.store i k ∈ content (.store i) := hxs ▸ mem_cons_self
      have hshape := h.shape.fromStore Place.InHand.held hxs (List.Perm.refl _)
      refine ⟨_, ⟨hshape.of_eq rfl rfl rfl rfl rfl, ?_, ?_, ?_, ?_⟩⟩
      · rw [update_self, h.held]
        rfl
      · intro u
        rw [update_of_ne (by simp), update_of_ne (by simp)]
        exact h.taken u
      · exact fun u => (h.pcOk u).frame fun _ _ _ hf => hf
      · intro c n hc
        rcases mem_cons.mp hc with hc | hc
        · cases hc
          exact ⟨hfit, Or.inl (h.shape.stores.ofClass i _ hb).2⟩
        · exact (h.heldOk c n hc).frame rfl (State.usable_of_sysSize rfl c) fun _ hf => hf

/-- `MallocImpl`, from the call of `std::malloc` on. -/
theorem mallocEnd (hpc : s.pc t = .sysMalloc size) (hans : s.mayAnswer answer) :
    ∃ content', Layout (s.mallocEnd t size answer) content' := by
  have hnil : (s.pc t).addrList = [] := by rw [hpc]; rfl
  cases answer with
  | none => exact ⟨content, h.setPc hnil.symm trivial⟩
  | some p =>
    obtain ⟨addr, junk⟩ := p
    have hnew : .sys addr ∉ s.sysUsed := by simpa [State.mayAnswer] using hans
    have hlt := h.pcOk t
    rw [hpc] at hlt
    set s' := s.sysMalloc addr { junk with userTag := sysTag, cacheExt := .notInCache }
      ((headerSize + size) % 2 ^ 64) with hs'
    -- the new block comes from the system into the caller's hands
    have hshape : Shape s' _ := h.shape.fromSystem Place.InHand.held hnew rfl (List.Perm.refl _)
    have hne : ∀ {r c}, c ∈ content r → c ≠ .sys addr := h.shape.ne_new hnew
    have hfits : ∀ {r i b}, b ∈ content r → s.Fits i b → s'.Fits i b := fun hb hf =>
      hf.sysMalloc (hne hb)
    have hlayout : Layout (s'.handOut (.sys addr) size)
        (update content .held (.sys addr :: content .held)) := by
      refine ⟨hshape.of_eq rfl rfl rfl rfl rfl, ?_, ?_, ?_, ?_⟩
      · rw [update_self, h.held]
        rfl
      · intro u
        rw [update_of_ne (by simp)]
        exact h.taken u
      · intro u
        apply (h.pcOk u).frame
        intro i b hb hf
        rw [← h.taken] at hb
        exact State.fits_of_sysSize rfl (hfits hb hf)
      · intro c n hc
        rcases mem_cons.mp hc with hc | hc
        · cases hc
          refine ⟨?_, Or.inl (congrArg Header.cacheExt (s.setHeader_self (.sys addr) _))⟩
          show size ≤ update s.sysSize addr _ addr
          rw [update_self, Nat.mod_eq_of_lt hlt]
          omega
        · have hcne := hne (h.mem_held hc)
          refine (h.heldOk c n hc).frame (s.setHeader_of_ne hcne _) ?_ fun i hf =>
            State.fits_of_sysSize rfl (hfits (h.mem_held hc) hf)
          cases c with
          | store j k => rfl
          | sys a => exact update_of_ne (by simpa using hcne) _ _
    exact ⟨_, hlayout.setPc (t := t) hnil.symm trivial⟩

end

theorem batchNext_addrList (i size : Nat) (addrList : List Block) :
    (State.batchNext i size addrList).addrList = addrList := by
  unfold State.batchNext
  split <;> rfl

theorem batchNext_ok (hi : i < maxStore) (hsize : size ≤ blockSize i)
    (hfits : ∀ b ∈ addrList, s.Fits i b) : s.PcOk (State.batchNext i size addrList) := by
  unfold State.batchNext
  split <;> exact ⟨hi, hsize, hfits⟩

theorem ofLocal {s' : State} {content' : Place → List Block} {bs : List Block}
    (h : Layout s content) (hloc : Local (.taken t) bs s s' content content')
    (hbs : ∀ b ∈ bs, b ∈ content (.taken t)) (hlist : content' (.taken t) = pc.addrList)
    (hok : s'.PcOk pc) : Layout (s'.setPc t pc) content' := by
  have hpc : ∀ u, (s'.setPc t pc).pc u = if u = t then pc else s.pc u := fun u => by
    simp [State.setPc, update_apply, hloc.pc]
  refine ⟨hloc.shape.of_eq rfl rfl rfl rfl rfl, ?_, ?_, ?_, ?_⟩
  · rw [hloc.hands .held .held (by simp), h.held, ← hloc.held]
    rfl
  · intro u
    rw [hpc]
    split
    next he => rw [he, hlist]
    next hne =>
      rw [hloc.hands (.taken u) (.taken u) (by simpa using hne)]
      exact h.taken u
  · intro u
    rw [hpc]
    split
    next => exact hok.frame fun _ _ _ hf => hf
    next => exact (h.pcOk u).frame fun _ _ _ hf => State.fits_of_sysSize hloc.sysSize hf
  · intro c n hc
    replace hc : (c, n) ∈ s.held := hloc.held ▸ hc
    have hout : c ∉ bs := fun hmem => by
      cases h.shape.placed.only (h.mem_held hc) (hbs c hmem)
    exact (h.heldOk c n hc).frame (hloc.header c hout) (State.usable_of_sysSize hloc.sysSize c)
      fun _ hf => State.fits_of_sysSize hloc.sysSize hf

/-- `BatchMatchImpl`, up to the second loop. -/
theorem batchMalloc (h : Layout s content) (hidle : (s.pc t).isIdle) (hi : i < maxStore)
    (hsize : size ≤ blockSize i) : ∃ content', Layout (s.batchMalloc t i size) content' := by
  have hnil : content (.taken t) = [] := by
    rw [h.taken]
    cases hpc : s.pc t with
    | idle => rfl
    | _ => rw [hpc] at hidle; cases hidle
  obtain ⟨content', hloc, htaken, hfits⟩ :=
    h.shape.batchStore (t := t) hi (cacheBatchSize i) (by rw [hnil]; simp)
  rw [hnil] at hloc htaken
  refine ⟨content', h.ofLocal hloc (by simp) ?_ ?_⟩
  · rw [htaken, batchNext_addrList]
  · apply batchNext_ok hi hsize
    rw [← htaken]
    exact fun b hb => State.fits_of_sysSize hloc.sysSize (hfits b hb)

/-- One round of the second loop of `BatchMatchImpl`. -/
theorem batchSys (h : Layout s content) (hpc : s.pc t = .batch i size addrList)
    (hans : s.mayAnswer answer) :
    ∃ content', Layout (s.batchSys t i size addrList answer) content' := by
  have hok := h.pcOk t
  have hlist := h.taken t
  rw [hpc] at hok hlist
  replace hlist : content (.taken t) = addrList := hlist
  obtain ⟨hi, hsize, hfits⟩ := hok
  cases answer with
  | none => exact ⟨content, h.setPc (by rw [hpc]; rfl) ⟨hi, hsize, hfits⟩⟩
  | some p =>
    obtain ⟨addr, junk⟩ := p
    have hnew : .sys addr ∉ s.sysUsed := by simpa [State.mayAnswer] using hans
    have hne : ∀ {r c}, c ∈ content r → c ≠ .sys addr := h.shape.ne_new hnew
    set s' := s.sysMalloc addr { junk with userTag := sysTag } (headerSize + blockSize i) with hs'
    have hshape : Shape s' _ := h.shape.fromSystem (Place.InHand.taken t) hnew rfl
      (perm_append_singleton (Block.sys addr) (content (.taken t)))
    have hkeep : ∀ {r j b}, b ∈ content r → s.Fits j b → s'.Fits j b := fun hb hf =>
      hf.sysMalloc (hne hb)
    have hpcs : ∀ u, (s.batchSys t i size addrList (some (addr, junk))).pc u =
        if u = t then State.batchNext i size (addrList ++ [.sys addr]) else s.pc u :=
      fun u => update_apply ..
    refine ⟨_, ⟨hshape.of_eq rfl rfl rfl rfl rfl, ?_, ?_, ?_, ?_⟩⟩
    · rw [update_of_ne (by simp)]
      exact h.held
    · intro u
      rw [hpcs]
      split
      next he => rw [he, update_self, batchNext_addrList, hlist]
      next hneu =>
        rw [update_of_ne (by simpa using hneu)]
        exact h.taken u
    · intro u
      rw [hpcs]
      split
      next =>
        apply batchNext_ok hi hsize
        intro b hb
        rcases mem_append.mp hb with hb | hb
        · exact State.fits_of_sysSize rfl (hkeep (hlist ▸ hb) (hfits b hb))
        · rw [mem_singleton.mp hb]
          refine ⟨hi, ?_⟩
          show update s.sysSize addr _ addr = _
          rw [update_self, Nat.add_sub_cancel_left]
      next =>
        apply (h.pcOk u).frame
        intro j b hb hf
        rw [← h.taken] at hb
        exact State.fits_of_sysSize rfl (hkeep hb hf)
    · intro c n hc
      have hcne := hne (h.mem_held hc)
      refine (h.heldOk c n hc).frame (s.setHeader_of_ne hcne _) ?_ fun j hf =>
        State.fits_of_sysSize rfl (hkeep (h.mem_held hc) hf)
      cases c with
      | store j k => rfl
      | sys a => exact update_of_ne (by simpa using hcne) _ _

/-- `PoolAlloc`, behind `BatchMalloc`. -/
theorem poolAlloc (h : Layout s content) (hpc : s.pc t = .link i size addrList) :
    ∃ content', Layout (s.poolAlloc t i size addrList) content' := by
  have hok := h.pcOk t
  have hlist := h.taken t
  rw [hpc] at hok hlist
  obtain ⟨hi, hsize, hfits⟩ := hok
  cases addrList with
  | nil => exact ⟨content, h.setPc (by rw [hpc]; rfl) trivial⟩
  -- The first block goes to the caller; the rest is linked into the cache.
  | cons b bs =>
    replace hlist : content (.taken t) = b :: bs := hlist
    have hb : b ∈ content (.taken t) := hlist ▸ mem_cons_self
    have hfit := hfits b mem_cons_self
    have hclass := h.shape.stamp_classed (t := t) (h.shape.placed.known hb) hfit
    obtain ⟨content', hloc, hlast⟩ := (h.shape.stamp (t := t) (i := i) (.taken t) hb).linkRest bs
      hlist fun c hc => hfits c (mem_cons_of_mem b hc)
    have hbs : b ∉ bs := (nodup_cons.mp (hlist ▸ h.shape.placed.nodup (.taken t))).1
    set s' := (s.stamp t i b).linkRest t i bs with hs'
    have hheader : s'.header b = (s.stamp t i b).header b := hloc.header b hbs
    have hsys : s'.sysSize = s.sysSize := hloc.sysSize
    have hheld : content' .held = s.held.map Prod.fst := by
      rw [hloc.hands .held .held (by simp)]
      exact h.held
    have hpcs : ∀ u, (s.poolAlloc t i size (b :: bs)).pc u =
        if u = t then .idle else s.pc u := fun u => by
      show update s'.pc t .idle u = _
      rw [update_apply, hloc.pc]
      rfl
    have hperm : (content' (.taken t)).Perm [b] := by rw [hlast]
    have hshape := hloc.shape.toHand (.taken t) .held (by simp) hperm
      (List.Perm.refl (b :: content' .held))
    refine ⟨_, ⟨hshape.of_eq rfl rfl rfl rfl rfl, ?_, ?_, ?_, ?_⟩⟩
    · rw [update_self, hheld]
      show _ = b :: s'.held.map Prod.fst
      rw [hloc.held]
      rfl
    · intro u
      rw [update_of_ne (by simp), hpcs]
      split
      next he => rw [he, update_self]; rfl
      next hne =>
        have hne' : Place.taken u ≠ .taken t := by simpa using hne
        rw [update_of_ne hne', hloc.hands (.taken u) (.taken u) hne']
        exact h.taken u
    · intro u
      rw [hpcs]
      split
      next => trivial
      next => exact (h.pcOk u).frame fun _ _ _ hf => State.fits_of_sysSize hsys hf
    · intro c n hc
      replace hc : (c, n) ∈ (b, size) :: s.held := hloc.held ▸ hc
      rcases mem_cons.mp hc with hc | hc
      · cases hc
        refine ⟨?_, Or.inr ⟨i, State.fits_of_sysSize hsys hfit, ?_⟩⟩
        · refine hsize.trans (le_of_eq ?_)
          exact hfit.usable.symm.trans (State.usable_of_sysSize hsys b).symm
        · show getBlockCacheIndex (s'.header b) = i
          rw [hheader]
          exact hclass.2
      -- The blocks of the batch were in the thread's hand, so none of them was handed out before.
      · have hout : ∀ d ∈ b :: bs, c ≠ d := by
          intro d hd he
          subst he
          cases h.shape.placed.only (h.mem_held hc) (hlist ▸ hd)
        have hsame : s'.header c = s.header c :=
          (hloc.header c fun hcb => hout c (mem_cons_of_mem b hcb) rfl).trans
            (s.setHeader_of_ne (hout b mem_cons_self) _)
        exact (h.heldOk c n hc).frame hsame (State.usable_of_sysSize hsys c) fun _ hf =>
          State.fits_of_sysSize hsys hf

theorem perm_giveUp {b : Block} (hb : b ∈ s.held.map Prod.fst) :
    (s.held.map Prod.fst).Perm (b :: (s.giveUp b).held.map Prod.fst) := by
  unfold State.giveUp
  generalize s.held = held at hb
  induction held with
  | nil => cases hb
  | cons p held ih =>
    by_cases hp : p.1 = b
    · rw [eraseP_cons_of_pos (by simpa using hp), map_cons, hp]
    · have hrest : b ∈ held.map Prod.fst :=
        (mem_cons.mp hb).resolve_left fun he => hp he.symm
      rw [eraseP_cons_of_neg (by simpa using hp), map_cons, map_cons]
      exact ((ih hrest).cons p.1).trans (List.Perm.swap b p.1 _)

/-- A held block goes back to the pool, whichever way `call` takes it. -/
theorem release (call : State → State) {b : Block} (h : Layout s content)
    (hb : b ∈ s.held.map Prod.fst)
    (hcall : ∀ xs, (content .held).Perm (b :: xs) → Shape (s.giveUp b) content →
      ((s.header b).cacheExt = .notInCache ∨ ∃ i, s.Classed i b) →
      ∃ content', Local .held [b] (s.giveUp b) (call (s.giveUp b)) content content' ∧
        content' .held = xs) :
    ∃ content', Layout (call (s.giveUp b)) content' := by
  have hperm : (content .held).Perm (b :: (s.giveUp b).held.map Prod.fst) :=
    h.held ▸ perm_giveUp hb
  have hout := nodup_cons.mp (hperm.nodup_iff.mp (h.shape.placed.nodup .held))
  obtain ⟨p, hp, hpb⟩ := mem_map.mp hb
  have hclass := (h.heldOk p.1 p.2 hp).2
  rw [hpb] at hclass
  obtain ⟨content', hloc, hheld⟩ :=
    hcall _ hperm (h.shape.of_eq rfl rfl rfl rfl rfl) hclass
  refine ⟨content', ⟨hloc.shape, ?_, ?_, ?_, ?_⟩⟩
  · rw [hheld, hloc.held]
  · intro u
    rw [hloc.hands (.taken u) (.taken u) (by simp), hloc.pc]
    exact h.taken u
  · intro u
    rw [hloc.pc]
    exact (h.pcOk u).frame fun _ _ _ hf => State.fits_of_sysSize hloc.sysSize hf
  · intro c n hc
    rw [hloc.held] at hc
    -- A block still held is not the one given up: each is held once.
    have hcb : c ∉ [b] := by
      intro hmem
      have hmap : c ∈ (s.giveUp b).held.map Prod.fst := mem_map_of_mem hc
      rw [mem_singleton.mp hmem] at hmap
      exact hout.1 hmap
    have hold : (c, n) ∈ s.held := mem_of_mem_eraseP hc
    exact (h.heldOk c n hold).frame (hloc.header c hcb) (State.usable_of_sysSize hloc.sysSize c)
      fun _ hf => State.fits_of_sysSize hloc.sysSize hf

end Layout

/-- The requests for which the size of the header still fits. -/
def Act.InRange : Act → Prop
  | .cacheAlloc _ size => headerSize + size < 2 ^ 64
  | .malloc _ size => headerSize + size < 2 ^ 64
  | _ => True

/-- Every step keeps the layout. -/
theorem step_layout {s s' : State} {a : Act} (hin : a.InRange) (hstep : step s a = some s')
    (h : ∃ content, Layout s content) : ∃ content', Layout s' content' := by
  obtain ⟨content, h⟩ := h
  unfold step at hstep
  cases a with
  | cacheAlloc t size =>
    obtain ⟨hidle, hs⟩ := Option.ite_none_right_eq_some.mp hstep
    cases hs
    unfold State.cacheAlloc
    split
    next hidx => exact h.malloc hidle hin
    next i hidx =>
      obtain ⟨hi, hsize⟩ := getStoreIndex_spec hidx
      rw [if_neg (by omega)]
      split
      next b hhead => exact h.cachePop hhead hsize
      next => exact h.batchMalloc hidle hi hsize
  | malloc t size =>
    obtain ⟨hidle, hs⟩ := Option.ite_none_right_eq_some.mp hstep
    cases hs
    exact h.malloc hidle hin
  | sys t answer =>
    obtain ⟨hans, hs⟩ := Option.ite_none_right_eq_some.mp hstep
    split at hs
    next size hpc =>
      cases hs
      exact h.mallocEnd hpc hans
    next i size addrList hpc =>
      cases hs
      exact h.batchSys hpc hans
    next => cases hs
  | poolAlloc t =>
    dsimp only at hstep
    split at hstep
    next i size addrList hpc =>
      cases hstep
      exact h.poolAlloc hpc
    next => cases hstep
  | cacheFree t b =>
    obtain ⟨⟨-, hb⟩, hs⟩ := Option.ite_none_right_eq_some.mp hstep
    cases hs
    exact h.release (fun s => s.cacheFree t b) hb fun xs hperm hshape hclass =>
      hshape.cacheFree .held hperm hclass
  | free t b =>
    obtain ⟨⟨-, hb⟩, hs⟩ := Option.ite_none_right_eq_some.mp hstep
    cases hs
    exact h.release (fun s => s.poolFree b) hb fun xs hperm hshape _ =>
      hshape.poolFree .held hperm

/-! ## The start -/

/-- At the start every store block is on its free list. -/
def initContent : Place → List Block
  | .store i => (List.range' 0 (blockCount i)).map (.store i)
  | _ => []

theorem init_freeLinked (i : Nat) : ∀ (n k : Nat), k + n = blockCount i →
    Linked init.FreeNext ((List.range' k n).map (.store i))
  | 0, _, _ => trivial
  | n + 1, k, hn => by
    refine ⟨?_, init_freeLinked i n (k + 1) (by omega)⟩
    show (if k + 1 < blockCount i then (k : Int) + 1 else -1) = _
    cases n with
    | zero =>
      rw [if_neg (by omega)]
      rfl
    | succ n =>
      rw [if_pos (by omega)]
      rfl

/-- The layout before the first step. -/
theorem init_layout : Layout init initContent := by
  refine ⟨⟨⟨?_, ?_, ?_⟩, ?_, ⟨?_, ?_, ?_⟩, ?_⟩, rfl, fun _ => rfl, fun _ => trivial, nofun⟩
  · intro p
    cases p with
    | store i =>
      apply List.Nodup.map _ nodup_range'
      intro k l hkl
      cases hkl
      rfl
    | _ => exact nodup_nil
  -- A store block carries its store in its name, so no two stores share one.
  · intro p q b hp hq
    cases p with
    | store i =>
      cases q with
      | store j =>
        obtain ⟨k, -, hk⟩ := mem_map.mp hp
        obtain ⟨l, -, hl⟩ := mem_map.mp hq
        rw [← hk] at hl
        cases hl
        rfl
      | _ => cases hq
    | _ => cases hp
  · intro b
    constructor
    · intro hb
      obtain ⟨p, hp⟩ := hb
      cases p with
      | store i =>
        obtain ⟨k, hk, he⟩ := mem_map.mp hp
        subst he
        show k < blockCount i
        have := mem_range'_1.mp hk
        omega
      | _ => cases hp
    · intro hb
      cases b with
      | store i k =>
        have hk : k < blockCount i := hb
        exact ⟨.store i, mem_map_of_mem (mem_range'_1.mpr ⟨by omega, by omega⟩)⟩
      | sys addr => cases hb
  · exact ⟨fun _ _ => rfl, fun _ _ => rfl, fun _ _ => trivial, fun _ _ _ hb => nomatch hb⟩
  · intro i
    show (if i < maxStore then (0 : Int) else -1) = _
    by_cases hi : i < maxStore
    · rw [if_pos hi]
      unfold maxStore at hi
      interval_cases i <;> rfl
    · have hzero : blockCount i = 0 := by
        by_contra hpos
        exact hi (lt_maxStore_of_lt_blockCount (Nat.pos_of_ne_zero hpos))
      rw [if_neg hi, initContent, hzero]
      rfl
  · exact fun i => init_freeLinked i (blockCount i) 0 (Nat.zero_add _)
  · intro i b hb
    obtain ⟨k, -, hk⟩ := mem_map.mp hb
    subst hk
    exact ⟨⟨k, rfl⟩, rfl⟩
  · exact ⟨fun i k _ => ⟨rfl, rfl, rfl⟩, nofun, nodup_nil⟩

/-! ## The partition -/

/-- What the pool promises of a state. `content` lists the blocks of each place. -/
structure Partitioned (s : State) (content : Place → List Block) : Prop where
  /-- Every block is in one place: a block of the stores is held, collected by one
  thread, on one cache list or on one free list; so is a system block, or it is
  returned to the system. -/
  oneStore : ∀ i k, k < blockCount i → ∃! p, .store i k ∈ content p
  oneSys : ∀ addr, if .sys addr ∈ s.sysUsed then ∃! p, .sys addr ∈ content p
    else ∀ p, .sys addr ∉ content p
  once : ∀ p, (content p).Nodup
  /-- The held blocks are those handed out, none of them twice. -/
  held : content .held = s.held.map Prod.fst
  taken : ∀ t, content (.taken t) = (s.pc t).addrList
  /-- The lists of a class, walked from their heads, hold blocks of that class. -/
  cacheHead : ∀ t i, (s.cache t).head i = (content (.cache t i)).head?
  cacheLinked : ∀ t i, Linked s.CacheNext (content (.cache t i))
  cacheClass : ∀ t i, ∀ b ∈ content (.cache t i), s.Fits i b
  freeHead : ∀ i, s.freeHead i = blockIdxOf (content (.store i)).head?
  freeLinked : ∀ i, Linked s.FreeNext (content (.store i))
  freeClass : ∀ i, ∀ b ∈ content (.store i), ∃ k, b = .store i k
  /-- The counts are the lengths of the lists. -/
  count : ∀ t i, (s.cache t).count i = (content (.cache t i)).length
  /-- What was handed out is large enough. -/
  usable : ∀ b size, (b, size) ∈ s.held → size ≤ s.usable b

theorem Layout.partitioned {s : State} {content : Place → List Block} (h : Layout s content) :
    Partitioned s content where
  oneStore := fun _ _ hk => h.shape.placed.existsUnique hk
  oneSys := fun addr => by
    split
    next hused => exact h.shape.placed.existsUnique hused
    next hfree => exact fun p hp => hfree (h.shape.placed.known hp)
  once := h.shape.placed.nodup
  held := h.held
  taken := h.taken
  cacheHead := h.shape.caches.head
  cacheLinked := h.shape.caches.linked
  cacheClass := fun t i b hb => (h.shape.caches.ofClass t i b hb).1
  freeHead := h.shape.stores.head
  freeLinked := h.shape.stores.linked
  freeClass := fun i b hb => (h.shape.stores.ofClass i b hb).1
  count := h.shape.caches.count
  usable := fun b size hb => (h.heldOk b size hb).1

/-- **The block pool keeps every block in one place.** Any interleaving of any
number of threads, with frees by other threads than the allocating ones. -/
theorem block_partition (acts : List Act) (s : State) (hin : ∀ a ∈ acts, a.InRange)
    (hrun : run step init acts = some s) : ∃ content, Partitioned s content := by
  have halong : Along step (fun _ a => a.InRange) init acts := Along.of_forall acts init hin
  obtain ⟨content, h⟩ := halong.invariant (fun s a s' hs ha hstep => step_layout ha hstep hs)
    acts ⟨initContent, init_layout⟩ hrun
  exact ⟨content, h.partitioned⟩

/-- A thread allocates from a batch, another one frees into its own cache, and a
large request goes to the system. -/
theorem block_partition_threads : ∃ s, run step init
    [.cacheAlloc 0 100, .poolAlloc 0, .cacheFree 1 (.store 1 0), .malloc 1 70000,
      .sys 1 (some (4096, initHeader (.sys 0)))] = some s ∧ s.held = [(.sys 4096, 70000)] ∧
    (s.cache 1).count 1 = 1 ∧ ∃ content, Partitioned s content :=
  ⟨_, rfl, rfl, rfl, block_partition [.cacheAlloc 0 100, .poolAlloc 0, .cacheFree 1 (.store 1 0),
    .malloc 1 70000, .sys 1 (some (4096, initHeader (.sys 0)))] _
    (by simp [Act.InRange, headerSize]) rfl⟩

/-- Just below `2 ^ 64` bytes the sum with the header wraps: `std::malloc` is asked
for 23 bytes, and a block of no usable byte is handed out. -/
theorem malloc_wraps : ∃ s, run step init
    [.malloc 0 (2 ^ 64 - 1), .sys 0 (some (4096, initHeader (.sys 0)))] = some s ∧
    s.held = [(.sys 4096, 2 ^ 64 - 1)] ∧ s.usable (.sys 4096) = 0 ∧
    ∀ content, ¬ Partitioned s content := by
  refine ⟨_, rfl, rfl, rfl, fun content h => ?_⟩
  have hle := h.usable (.sys 4096) (2 ^ 64 - 1) mem_cons_self
  exact absurd hle (by decide)

end OpBase.Pool
