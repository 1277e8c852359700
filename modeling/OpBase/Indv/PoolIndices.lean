import OpBase.Indv.PoolInv

/-!
# The indices of the pool

As long as nothing that was fixed is released, `argsMap`, `cacheList` and `argsCache`
have the same args, each once, and `fixedCacheMap` has the others. `Tidy` says so
next to `PoolInv`; every step but the release of a fixed args keeps it.

> `indices_consistent`: in a run with the cache on in which no executor is cleared or
> made repeatable again once it is repeatable, the indices are consistent throughout.
-/

namespace OpBase.Indv

open List

open Function (update update_of_ne update_self)
open OpBase.Lib

namespace ArgsPool

variable {s s' : ArgsPool} {a b : ArgsPtr} {e : Nat} {x : Option ArgsPtr}
  {hash : List Byte → Nat} {maxCacheNum : Nat} {event : PoolEvent}

/-- Once on the list of its seed and on no other. -/
def OnceUnder (m : SeedMap) (a : ArgsPtr) (seed : Nat) : Prop :=
  (m.list seed).count a = 1 ∧ ∀ t, t ≠ seed → a ∉ m.list t

/-- Each live args has its place, one in use is not deleted, and one that is neither in use nor
fixed is found under its key: it or another idle one with the same key. -/
structure Consistent (hash : List Byte → Nat) (s : ArgsPool) : Prop where
  place : ∀ a, s.Live a →
    (OnceUnder s.fixedCacheMap a (s.args a).seed ∧ (∀ t, a ∉ s.argsMap.list t) ∧
      a ∉ s.cacheList.values ∧ s.argsCache.lookup a = none) ∨
    ((∀ t, a ∉ s.fixedCacheMap.list t) ∧ OnceUnder s.argsMap a (s.args a).seed ∧
      s.cacheList.values.count a = 1 ∧
      ∃ it, s.argsCache.lookup a = some it ∧ s.cacheList.at? it = some a)
  alive : ∀ a, a ∈ s.cacheList.values ∨ (∃ t, a ∈ s.argsMap.list t) ∨
    (∃ t, a ∈ s.fixedCacheMap.list t) → s.Live a
  inUse : ∀ a, (s.args a).isVist = true → s.deletions a = 0
  found : ∀ a, s.Live a → (s.args a).isVist = false → (∀ t, a ∉ s.fixedCacheMap.list t) →
    ∀ e, (s.executor e).args = none → ∃ b, (s.matchArgs hash e (s.args a).inputKey).2 = some b ∧
      s.Live b ∧ (s.args b).isVist = false ∧ (s.args b).inputKey = (s.args a).inputKey

/-! ## Tidy pools -/

structure Tidy (hash : List Byte → Nat) (x : Option ArgsPtr) (s : ArgsPool) : Prop where
  mapped : ∀ a ∈ s.cacheList.values, x ≠ some a → a ∈ s.argsMap.list (s.args a).seed
  fixedLive : ∀ t, ∀ a ∈ s.fixedCacheMap.list t, s.Live a ∧ (s.args a).seed = t
  fixedNodup : ∀ t, (s.fixedCacheMap.list t).Nodup
  seeds : ∀ a, s.Live a → x ≠ some a → (s.args a).seed = hash (s.args a).inputKey
  caching : ∀ e, (s.executor e).enableCache = true ∧
    ((s.executor e).keyed = true → (s.args (.own e)).seed = hash (s.args (.own e)).inputKey)
  heap : ∀ e a, (s.executor e).args = some a → s.Live a
  room : 0 < s.maxCacheNum

theorem tidy_init (hpos : 0 < maxCacheNum) :
    Tidy hash none (init maxCacheNum) where
  mapped _ ha := absurd ha not_mem_nil
  fixedLive _ _ ha := absurd ha not_mem_nil
  fixedNodup _ := nodup_nil
  seeds a ha := by
    obtain ⟨-, n, hn, -⟩ := ha
    exact absurd hn (Nat.not_lt_zero n)
  caching _ := ⟨rfl, fun h => absurd h Bool.false_ne_true⟩
  heap _ _ h := absurd h (by simp [init])
  room := hpos

theorem count_of_once {m : SeedMap} {seed : Nat} (hnodup : (m.list seed).Nodup)
    (ha : a ∈ m.list seed) (honly : ∀ t, a ∈ m.list t → t = seed) : OnceUnder m a seed :=
  ⟨count_eq_one_of_mem hnodup ha, fun t ht hmem => ht (honly t hmem)⟩

theorem matchArgs_found (hroom : 0 < s.maxCacheNum) {key : List Byte}
    (ha : a ∈ s.argsMap.list (hash key)) (hidle : (s.args a).isVist = false)
    (hkey : (s.args a).inputKey = key) (hown : ∀ b ∈ s.argsMap.list (hash key), b ≠ .own e) :
    ∃ b, (s.matchArgs hash e key).2 = some b ∧ b ∈ s.argsMap.list (hash key) ∧
      (s.args b).isVist = false ∧ (s.args b).inputKey = key := by
  have hargs : ∀ b ∈ s.argsMap.list (hash key), (s.setKey hash e key).args b = s.args b :=
    fun b hb => update_of_ne (hown b hb) _ _
  have hmatch : (s.setKey hash e key).isArgsMatch key a = true := by
    unfold isArgsMatch
    rw [hargs a ha, hidle, hkey]
    simp
  unfold matchArgs
  rw [if_neg (Nat.ne_of_gt hroom)]
  cases hfind : ((s.setKey hash e key).argsMap.list (hash key)).find?
      ((s.setKey hash e key).isArgsMatch key) with
  | none => exact absurd hmatch (find?_eq_none.mp hfind a ha)
  | some b =>
    have hb : b ∈ s.argsMap.list (hash key) := mem_of_find?_eq_some hfind
    have hmatch := find?_some hfind
    unfold isArgsMatch at hmatch
    rw [hargs b hb, Bool.and_eq_true_iff, beq_iff_eq] at hmatch
    exact ⟨b, rfl, hb, Bool.not_eq_eq_eq_not.mp hmatch.1, hmatch.2⟩

/-- In a tidy pool the three indices are consistent. -/
theorem Tidy.consistent (ht : Tidy hash none s) (h : PoolInv none s) : s.Consistent hash := by
  have hplace : ∀ b, s.Live b → (∀ t, b ∉ s.fixedCacheMap.list t) →
      b ∈ s.argsMap.list (s.args b).seed := fun b hb hfixed =>
    ht.mapped b ((h.placed b hb (by simp)).resolve_right (hfixed _)) (by simp)
  constructor
  · intro b hb
    -- an args that is in use is fixed, or in the list
    by_cases hfixed : b ∈ s.fixedCacheMap.list (s.args b).seed
    · have hmap : ∀ t, b ∉ s.argsMap.list t := fun t hmem => by
        obtain ⟨-, hseed, hnot⟩ := h.mapped t b hmem (by simp)
        exact hnot (hseed ▸ hfixed)
      have hlist : b ∉ s.cacheList.values := fun hl => hmap _ (ht.mapped b hl (by simp))
      exact Or.inl ⟨count_of_once (ht.fixedNodup _) hfixed fun t hmem =>
        ((ht.fixedLive t b hmem).2).symm, hmap, hlist, h.index.lookup_eq_none hlist⟩
    · have hlist := (h.placed b hb (by simp)).resolve_right hfixed
      obtain ⟨it, hit⟩ := NodeList.mem_values.mp hlist
      have hat : NodeList.Indexes id (fun c => s.argsCache.lookup c) s.cacheList := h.index
      refine Or.inr ⟨fun t hmem => hfixed ((ht.fixedLive t b hmem).2.symm ▸ hmem), ?_,
        count_eq_one_of_mem h.index.nodup hlist, it, hat.of_node hit, NodeList.at?_eq hit⟩
      exact count_of_once (h.nodup _) (ht.mapped b hlist (by simp)) fun t hmem =>
        (h.mapped t b hmem (by simp)).2.1.symm
  · rintro b (hl | ⟨t, hmem⟩ | ⟨t, hmem⟩)
    · exact h.listed b hl
    · exact h.listed b (h.mapped t b hmem (by simp)).1
    · exact (ht.fixedLive t b hmem).1
  · exact h.visited
  · intro b hb hidle hfixed e he
    have hmap := hplace b hb hfixed
    rw [ht.seeds b hb (by simp)] at hmap
    have hown : ∀ c ∈ s.argsMap.list (hash (s.args b).inputKey), c ≠ .own e := by
      rintro c hc rfl
      exact h.not_mapped_own _ hc
    obtain ⟨c, hfound, hc, hcidle, hckey⟩ := matchArgs_found ht.room hmap hidle rfl hown
    exact ⟨c, hfound, h.listed c (h.mapped _ c hc (by simp)).1, hcidle, hckey⟩

/-! ## The steps -/

/-- A change of what the indices do not speak of keeps the pool tidy. -/
theorem Tidy.frame (ht : Tidy hash x s)
    (hargs : ∀ a, (s'.args a).seed = (s.args a).seed ∧ (s'.args a).inputKey = (s.args a).inputKey)
    (hvalues : ∀ a, a ∈ s'.cacheList.values ↔ a ∈ s.cacheList.values)
    (hmap : s'.argsMap = s.argsMap)
    (hfixed : ∀ t, s'.fixedCacheMap.list t = s.fixedCacheMap.list t)
    (hlive : ∀ a, s'.Live a ↔ s.Live a) (hmax : s'.maxCacheNum = s.maxCacheNum)
    (hexec : ∀ e, (s'.executor e).enableCache = true ∧
      ((s'.executor e).keyed = true → (s.executor e).keyed = true) ∧
      ∀ a, (s'.executor e).args = some a → s.Live a) : Tidy hash x s' where
  mapped a ha hx := by
    rw [hmap, (hargs a).1]
    exact ht.mapped a ((hvalues a).mp ha) hx
  fixedLive t a ha := by
    rw [hfixed] at ha
    obtain ⟨hl, hseed⟩ := ht.fixedLive t a ha
    exact ⟨(hlive a).mpr hl, (hargs a).1.trans hseed⟩
  fixedNodup t := by
    rw [hfixed]
    exact ht.fixedNodup t
  seeds a ha hx := by
    rw [(hargs a).1, (hargs a).2]
    exact ht.seeds a ((hlive a).mp ha) hx
  caching e := by
    rw [(hargs _).1, (hargs _).2]
    exact ⟨(hexec e).1, fun hk => (ht.caching e).2 ((hexec e).2.1 hk)⟩
  heap e a ha := (hlive a).mpr ((hexec e).2.2 a ha)
  room := hmax ▸ ht.room

theorem executor_setExecutor (s : ArgsPool) (e f : Nat) (user : ArgsUser) :
    (s.setExecutor e user).executor f = if f = e then user else s.executor f := by
  show update s.executor e user f = _
  by_cases hf : f = e
  · rw [if_pos hf, hf, update_self]
  · rw [if_neg hf, update_of_ne hf]

section

variable (ht : Tidy hash none s)
include ht

theorem Tidy.take (hlive : s.Live a) : Tidy hash none (s.take e a) := by
  have hset : Tidy hash none
      ((s.setVist a true).setExecutor e { s.executor e with args := some a }) := by
    refine ht.frame (setVist_frame s a true) (fun _ => Iff.rfl) rfl (fun _ => rfl)
      (fun _ => Iff.rfl)
      rfl fun f => ?_
    rw [executor_setExecutor]
    split
    next hf =>
      refine ⟨(ht.caching e).1, fun hk => hf ▸ hk, fun b hb => ?_⟩
      exact Option.some.inj hb ▸ hlive
    next => exact ⟨(ht.caching f).1, id, ht.heap f⟩
  unfold ArgsPool.take get
  split
  next it hit =>
    refine hset.frame (fun _ => ⟨rfl, rfl⟩) (fun b => ?_) rfl (fun _ => rfl) (fun _ => Iff.rfl) rfl
      fun f => ⟨(hset.caching f).1, id, hset.heap f⟩
    rw [NodeList.mem_values, NodeList.mem_values]
    exact exists_congr fun _ => NodeList.mem_nodes_splice
  next => exact hset

theorem Tidy.clear (hfixed : a ∉ s.fixedCacheMap.list (s.args a).seed) :
    Tidy hash none ((s.releaseArgs a).setExecutor e {}) := by
  obtain ⟨m, hm, hlist⟩ := releaseFixedCache_of_not hfixed
  unfold releaseArgs
  rw [hm]
  refine ht.frame (setVist_frame _ a false) (fun _ => Iff.rfl) rfl hlist (fun _ => Iff.rfl) rfl
    fun f => ?_
  rw [executor_setExecutor]
  split
  next => exact ⟨rfl, fun hk => absurd hk Bool.false_ne_true, fun b hb => absurd hb (by simp)⟩
  next => exact ⟨(ht.caching f).1, id, ht.heap f⟩

/-! ## Runs -/

/-- The cache stays on, and an executor that is repeatable is neither cleared nor made
repeatable again. -/
def KeepsFixed (s : ArgsPool) : PoolEvent → Prop
  | .disableCache _ => False
  | .setRepeatable e | .clear e => ∀ a, (s.executor e).args = some a →
      a ∉ s.fixedCacheMap.list (s.args a).seed
  | _ => True

section

variable (h : PoolInv none s)
include h

/-- Setting the key of an executor keeps the pool tidy. -/
theorem Tidy.setKey (e : Nat) (key : List Byte) :
    Tidy hash none (s.setKey hash e key) := by
  have hargs : ∀ b, s.Live b → (s.setKey hash e key).args b = s.args b := by
    intro b hb
    have hne : b ≠ .own e := fun heq => not_live_own (heq ▸ hb)
    exact update_of_ne hne _ _
  constructor
  · intro b hb hx
    rw [hargs b (h.listed b hb)]
    exact ht.mapped b hb hx
  · intro t b hb
    obtain ⟨hlive, hseed⟩ := ht.fixedLive t b hb
    rw [hargs b hlive]
    exact ⟨hlive, hseed⟩
  · exact ht.fixedNodup
  · intro b hb hx
    rw [hargs b hb]
    exact ht.seeds b hb hx
  · intro f
    show ((ArgsPool.setExecutor _ e _).executor f).enableCache = true ∧ (_ → _)
    rw [ArgsPool.setKey, executor_setExecutor]
    by_cases hf : f = e
    · subst hf
      rw [if_pos rfl]
      refine ⟨(ht.caching f).1, fun _ => ?_⟩
      show (update s.args _ _ _ : Args).seed = hash (update s.args _ _ _ : Args).inputKey
      rw [update_self]
    · rw [if_neg hf]
      refine ⟨(ht.caching f).1, fun hk => ?_⟩
      have hne : ArgsPtr.own f ≠ .own e := fun heq => hf (ArgsPtr.own.inj heq)
      show (update s.args _ _ _ : Args).seed = hash (update s.args _ _ _ : Args).inputKey
      rw [update_of_ne hne]
      exact (ht.caching f).2 hk
  · intro f b hb
    rw [ArgsPool.setKey, executor_setExecutor] at hb
    split at hb
    next hf => exact ht.heap e b hb
    next => exact ht.heap f b hb
  · exact ht.room

theorem Tidy.matchArgs (e : Nat) (key : List Byte) :
    Tidy hash none (s.matchArgs hash e key).1 := by
  unfold ArgsPool.matchArgs
  rw [if_neg (Nat.ne_of_gt ht.room)]
  split
  next a hfind =>
    have hmem := mem_of_find?_eq_some hfind
    have hkeyed := h.setKey hash e key
    exact (ht.setKey h e key).take (hkeyed.listed a (hkeyed.mapped _ a hmem (by simp)).1)
  next => exact ht.setKey h e key

theorem Tidy.fixCache
    (ha : (s.executor e).args = some a) (hfixed : a ∉ s.fixedCacheMap.list (s.args a).seed) :
    Tidy hash none (s.fixCache a) := by
  have hfix : ∀ t b, b ∈ (s.fixCache a).fixedCacheMap.list t ↔
      b ∈ s.fixedCacheMap.list t ∨ (b = a ∧ t = (s.args a).seed) := fun t b => SeedMap.mem_push
  refine { ht with mapped := ?_, fixedLive := ?_, fixedNodup := ?_ }
  · intro b hb _
    have hvalues := (h.values_fixCache ha b).mp hb
    refine (SeedMap.mem_takeOut (h.nodup _)).mpr ⟨?_, fun hand => hvalues.2 hand.1⟩
    exact ht.mapped b hvalues.1 (by simp)
  · intro t b hb
    rcases (hfix t b).mp hb with hb | ⟨rfl, hseed⟩
    · exact ht.fixedLive t b hb
    · exact ⟨ht.heap e b ha, hseed.symm⟩
  · intro t
    show ((s.fixedCacheMap.push _ a).list t).Nodup
    rw [SeedMap.list_push]
    split
    next =>
      rw [← concat_eq_append]
      exact (ht.fixedNodup _).concat hfixed
    next => exact ht.fixedNodup t

/-- So does creating args, which are entered under the key that was set. -/
theorem Tidy.createArgs (hkeyed : (s.executor e).enableCache → (s.executor e).keyed) :
    Tidy hash none (s.createArgs e) := by
  obtain ⟨henable, hkey⟩ := ht.caching e
  unfold ArgsPool.createArgs
  rw [if_pos henable]
  have hnew : ∀ b, s.Live b → b ≠ .heap s.nextArgs := by
    rintro b ⟨-, n, hn, rfl⟩ heq
    exact absurd (ArgsPtr.heap.inj heq) (Nat.ne_of_lt hn)
  have hmiss : .heap s.nextArgs ∉ s.cacheList.values := fun hl => hnew _ (h.listed _ hl) rfl
  have hdel := h.fresh s.nextArgs (Nat.le_refl _)
  have halloc : ∀ b, (s.allocate e).Live b ↔ s.Live b ∨ b = .heap s.nextArgs := by
    intro b
    constructor
    · rintro ⟨hb, n, hn, rfl⟩
      rcases Nat.lt_or_eq_of_le (Nat.le_of_lt_succ hn) with hn | rfl
      · exact Or.inl ⟨hb, n, hn, rfl⟩
      · exact Or.inr rfl
    · rintro (⟨hb, n, hn, rfl⟩ | rfl)
      · exact ⟨hb, n, Nat.lt_succ_of_lt hn, rfl⟩
      · exact ⟨hdel, _, Nat.lt_succ_self _, rfl⟩
  obtain ⟨gone, hspec, hput⟩ := (h.allocate e).put hmiss ((halloc _).mpr (Or.inr rfl))
  obtain ⟨kept, hkept, hvalues⟩ := hspec.values
  have hmem : .heap s.nextArgs ∈ ((s.allocate e).put (.heap s.nextArgs)).cacheList.values :=
    hkept ▸ mem_cons_self
  have hlive := hput.listed _ hmem
  have hargs : ∀ b, b ≠ .heap s.nextArgs → ((((s.allocate e).put (.heap s.nextArgs)).setArgs
      (.heap s.nextArgs) { s.args (.own e) with isVist := true }).args b) = s.args b := by
    intro b hb
    show update ((s.allocate e).put _).args _ _ b = _
    rw [update_of_ne hb, hspec.args]
    exact update_of_ne hb _ _
  constructor
  · intro b hb _
    rcases mem_cons.mp (hkept ▸ hb) with rfl | hb
    · -- the new args is under the seed that it has been given now
      rw [setArgs_self]
      refine (hspec.mem_map _ _).mpr ⟨SeedMap.mem_push.mpr (Or.inr ⟨rfl, rfl⟩), fun hand => ?_⟩
      exact ((hspec.live _).mp hlive).2 hand.1
    · have hb' : b ∈ s.cacheList.values := hvalues ▸ mem_append_left gone hb
      have hlb := h.listed b hb'
      rw [hargs b (hnew b hlb)]
      refine (hspec.mem_map _ _).mpr ⟨SeedMap.mem_push.mpr (Or.inl (ht.mapped b hb' (by simp))), ?_⟩
      have hnodup : (kept ++ gone).Nodup := hvalues ▸ h.index.nodup
      exact fun hand => (nodup_append.mp hnodup).2.2 b hb b hand.1 rfl
  · intro t b hb
    have hb : b ∈ ((s.allocate e).put (.heap s.nextArgs)).fixedCacheMap.list t := hb
    rw [hspec.fixed] at hb
    obtain ⟨hlb, hseed⟩ := ht.fixedLive t b hb
    rw [hargs b (hnew b hlb)]
    refine ⟨(hspec.live b).mpr ⟨(halloc b).mpr (Or.inl hlb), fun hg => ?_⟩, hseed⟩
    -- what is fixed is not on the list
    have hl : b ∈ s.cacheList.values := hvalues ▸ mem_append_right kept hg
    exact (h.mapped _ b (ht.mapped b hl (by simp)) (by simp)).2.2 (hseed.symm ▸ hb)
  · intro t
    show (((s.allocate e).put (.heap s.nextArgs)).fixedCacheMap.list t).Nodup
    rw [hspec.fixed]
    exact ht.fixedNodup t
  · intro b hb _
    rcases (halloc b).mp ((hspec.live b).mp hb).1 with hlb | rfl
    · rw [hargs b (hnew b hlb)]
      exact ht.seeds b hlb (by simp)
    · rw [setArgs_self]
      exact hkey (hkeyed henable)
  · intro f
    rw [hargs (.own f) fun heq => by cases heq]
    have hexec : ((((s.allocate e).put (.heap s.nextArgs)).setArgs (.heap s.nextArgs)
        { s.args (.own e) with isVist := true }).executor f) =
        if f = e then { s.executor e with args := some (.heap s.nextArgs) } else s.executor f := by
      show ((s.allocate e).put (.heap s.nextArgs)).executor f = _
      rw [hspec.executor]
      exact executor_setExecutor _ e f _
    rw [hexec]
    split
    next hf => exact ⟨henable, fun hk => hf ▸ hkey hk⟩
    next => exact ht.caching f
  · intro f b hb
    have hb : (((s.allocate e).put (.heap s.nextArgs)).executor f).args = some b := hb
    rcases hput.held f b hb with rfl | hand
    · -- its own args no executor has
      rw [hspec.executor] at hb
      have hb : (((s.setExecutor e { s.executor e with args := some (.heap s.nextArgs) }).executor
        f).args) = some (.own f) := hb
      rw [executor_setExecutor] at hb
      split at hb
      next => cases hb
      next => exact absurd (ht.heap f _ hb) not_live_own
    · exact hand.1
  · have hmax := evict_maxCacheNum s.cacheList.nodes.length (s.allocate e)
    show 0 < (evict s.cacheList.nodes.length (s.allocate e)).maxCacheNum
    rw [hmax]
    exact ht.room

theorem Tidy.step (hok : s.KeepsFixed event) (hstep : s.step hash event = some s') :
    Tidy hash none s' := by
  cases event with
  | matchArgs e key =>
    obtain ⟨-, hs⟩ := Option.ite_none_right_eq_some.mp hstep
    exact Option.some.inj hs ▸ ht.matchArgs h e key
  | disableCache e => exact absurd hok not_false
  | createArgs e =>
    obtain ⟨hand, hs⟩ := Option.ite_none_right_eq_some.mp hstep
    exact Option.some.inj hs ▸ ht.createArgs h hand.2
  | setRepeatable e =>
    obtain ⟨a, ha, rfl⟩ := Option.map_eq_some_iff.mp hstep
    exact ht.fixCache h ha (hok a ha)
  | clear e =>
    obtain ⟨a, ha, rfl⟩ := Option.map_eq_some_iff.mp hstep
    exact ht.clear (hok a ha)

end

end

theorem KeepsFixed.keepsOwn (h : s.KeepsFixed event) : s.KeepsOwn event := by
  cases event with
  | clear e => exact h (.own e)
  | setRepeatable e => exact h
  | matchArgs _ _ | disableCache _ | createArgs _ => trivial

/-- In a run with the cache on that releases nothing fixed, and fixes nothing twice, the indices
are consistent in every state. -/
theorem indices_consistent (hash : List Byte → Nat) (hpos : 0 < maxCacheNum)
    (events : List PoolEvent) (hok : Along (step hash) KeepsFixed (init maxCacheNum) events) :
    Throughout (step hash) (Consistent hash) (init maxCacheNum) events := by
  have hboth : Throughout (step hash) (fun s => PoolInv none s ∧ Tidy hash none s)
      (init maxCacheNum) events :=
    Along.throughout (fun s event s' hs hk hstep => ⟨hs.1.step hk.keepsOwn hstep,
      hs.2.step hs.1 hk hstep⟩) events hok ⟨inv_init maxCacheNum, tidy_init hpos⟩
  exact hboth.mono fun s hs => hs.2.consistent hs.1

/-- An args is found again, evicted by the next one, and that is made repeatable. -/
theorem indices_consistent_reuse : Throughout (step List.length) (Consistent List.length) (init 1)
    [.matchArgs 0 [1], .createArgs 0, .clear 0, .matchArgs 0 [1], .clear 0, .matchArgs 0 [2],
      .createArgs 0, .setRepeatable 0] := by
  refine indices_consistent List.length Nat.one_pos _ ⟨trivial, fun _ h₁ => ⟨trivial, fun _ h₂ =>
    ⟨fun a _ hmem => ?_, fun _ h₃ => ⟨trivial, fun _ h₄ => ⟨fun a _ hmem => ?_, fun _ h₅ =>
      ⟨trivial, fun _ h₆ => ⟨trivial, fun _ h₇ => ⟨fun a _ hmem => ?_, fun _ _ => trivial⟩⟩⟩⟩⟩⟩⟩⟩
  · cases h₁
    cases h₂
    exact absurd hmem not_mem_nil
  · cases h₁
    cases h₂
    cases h₃
    cases h₄
    exact absurd hmem not_mem_nil
  · cases h₁
    cases h₂
    cases h₃
    cases h₄
    cases h₅
    cases h₆
    cases h₇
    exact absurd hmem not_mem_nil

/-- A repeatable executor is cleared; its args is idle, on the list and not in `argsMap`, and the
next lookup of its key misses. -/
theorem released_not_found : ∃ s, run (step List.length) (init 1)
      [.matchArgs 0 [1], .createArgs 0, .setRepeatable 0, .clear 0] = some s ∧
    ¬ s.Consistent List.length ∧ (s.matchArgs List.length 0 [1]).2 = none := by
  refine ⟨_, rfl, fun h => ?_, by decide⟩
  have hlive : Live _ (.heap 0) := h.alive (.heap 0) (Or.inl (by decide))
  rcases h.place (.heap 0) hlive with hfixed | hmapped
  · exact absurd hfixed.2.2.1 (by decide)
  · exact absurd hmapped.2.1.1 (by decide)

end ArgsPool

end OpBase.Indv
