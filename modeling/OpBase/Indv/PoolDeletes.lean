import OpBase.Indv.PoolInv

/-!
# What the pool deletes

An args leaves `argsMap` when it is fixed and does not come back when it is released:
`Put` enters it on the list only. There it is still deleted once it is old enough,
but `Finalize` looks into `argsMap` alone. And the `ownArgs` of an executor, which a
repeatable executor without the cache has fixed, goes on the list like any other.

The model has no address twice. `make_unique` may answer with that of a deleted args;
this makes no difference as long as the pool has no pointer to a deleted one, which
`FixedOnce` says of `fixedCacheMap`, where nothing is fixed twice.

> `pool_deletes_once`: where no `ownArgs` is released from being fixed and nothing is
> fixed twice, every pointer that is deleted was allocated, and is deleted once; `Finalize`
> leaves nothing over exactly if `argsMap` has everything that is alive.
-/

namespace OpBase.Indv

open OpBase.Lib

namespace SeedMap

/-- All lists of the map. -/
def all (m : SeedMap) : List ArgsPtr := m.entries.flatMap Sigma.snd

variable {m : SeedMap} {a : ArgsPtr}

theorem mem_all : a ∈ m.all ↔ ∃ t, a ∈ m.list t := by
  unfold all list
  rw [List.mem_flatMap]
  constructor
  · intro ⟨⟨t, as⟩, hentry, ha⟩
    refine ⟨t, ?_⟩
    have hlookup : AList.lookup t m = some as := AList.mem_lookup_iff.mpr hentry
    rw [hlookup]
    exact ha
  · intro ⟨t, ha⟩
    cases hlookup : AList.lookup t m with
    | none =>
      rw [hlookup] at ha
      exact absurd ha List.not_mem_nil
    | some as =>
      rw [hlookup] at ha
      exact ⟨⟨t, as⟩, AList.mem_lookup_iff.mp hlookup, ha⟩

theorem list_of_entry {t : Nat} {as : List ArgsPtr} (h : ⟨t, as⟩ ∈ m.entries) : m.list t = as := by
  have hlookup : AList.lookup t m = some as := AList.mem_lookup_iff.mpr h
  unfold list
  rw [hlookup, Option.getD_some]

theorem nodup_all (hnodup : ∀ t, (m.list t).Nodup)
    (honly : ∀ t u a, a ∈ m.list t → a ∈ m.list u → t = u) : m.all.Nodup := by
  refine List.nodup_flatMap.mpr ⟨fun ⟨t, as⟩ hentry => ?_, ?_⟩
  · exact list_of_entry hentry ▸ hnodup t
  · refine (List.nodupKeys_iff_pairwise.mp m.nodupKeys).imp_of_mem fun {p q} hp hq hne => ?_
    intro a hap haq
    refine hne (honly p.1 q.1 a ?_ ?_)
    · exact (list_of_entry hp).symm ▸ hap
    · exact (list_of_entry hq).symm ▸ haq

end SeedMap

namespace ArgsPool

variable {s s' : ArgsPool} {a : ArgsPtr} {e : Nat} {hash : List Byte → Nat}

/-! ## What is fixed -/

/-- What is fixed is alive, fixed once, and not on the list. -/
structure FixedOnce (s : ArgsPool) : Prop where
  live : ∀ t n, .heap n ∈ s.fixedCacheMap.list t → s.Live (.heap n) ∧ (s.args (.heap n)).seed = t
  off : ∀ t, ∀ a ∈ s.fixedCacheMap.list t, a ∉ s.cacheList.values
  nodup : ∀ t, (s.fixedCacheMap.list t).Nodup

namespace FixedOnce

theorem frame (hf : FixedOnce s)
    (hargs : ∀ n, (s'.args (.heap n)).seed = (s.args (.heap n)).seed)
    (hvalues : ∀ a, a ∈ s'.cacheList.values ↔ a ∈ s.cacheList.values)
    (hfixed : ∀ t, s'.fixedCacheMap.list t = s.fixedCacheMap.list t)
    (hlive : ∀ a, s'.Live a ↔ s.Live a) : FixedOnce s' where
  live t n hn := by
    rw [hfixed] at hn
    exact (hf.live t n hn).imp (hlive _).mpr (hargs n).trans
  off t a ha hl := hf.off t a (hfixed t ▸ ha) ((hvalues a).mp hl)
  nodup t := hfixed t ▸ hf.nodup t

theorem matchArgs (hf : FixedOnce s) (e : Nat) (key : List Byte) :
    FixedOnce (s.matchArgs hash e key).1 := by
  have hkey : FixedOnce (s.setKey hash e key) :=
    hf.frame (fun _ => rfl) (fun _ => Iff.rfl) (fun _ => rfl) fun _ => Iff.rfl
  unfold ArgsPool.matchArgs
  split
  next => exact hf.frame (fun _ => rfl) (fun _ => Iff.rfl) (fun _ => rfl) fun _ => Iff.rfl
  next =>
    split
    next a hfind =>
      have hvist := fun n => (setVist_frame (s.setKey hash e key) a true (.heap n)).1
      unfold ArgsPool.take get
      split
      next it hit =>
        refine hkey.frame hvist (fun b => ?_) (fun _ => rfl) fun _ => Iff.rfl
        rw [NodeList.mem_values, NodeList.mem_values]
        exact exists_congr fun _ => NodeList.mem_nodes_splice
      next => exact hkey.frame hvist (fun _ => Iff.rfl) (fun _ => rfl) fun _ => Iff.rfl
    next => exact hkey

theorem fixCache (hf : FixedOnce s) (h : PoolInv none s) (ha : (s.executor e).args = some a)
    (hnew : a ∉ s.fixedCacheMap.list (s.args a).seed) : FixedOnce (s.fixCache a) where
  live t n hn := by
    rcases SeedMap.mem_push.mp hn with hn | ⟨rfl, hseed⟩
    · exact hf.live t n hn
    · exact ⟨((h.held e _ ha).resolve_left (by simp)).1, hseed.symm⟩
  off t b hb hl := by
    obtain ⟨hl, hne⟩ := (h.values_fixCache ha b).mp hl
    exact hf.off t b ((SeedMap.mem_push.mp hb).resolve_right fun hand => hne hand.1) hl
  nodup t := by
    show ((s.fixedCacheMap.push _ a).list t).Nodup
    rw [SeedMap.list_push]
    split
    next =>
      rw [← List.concat_eq_append]
      exact (hf.nodup _).concat hnew
    next => exact hf.nodup t

/-- What the eviction of `Put` takes off the list is not fixed. -/
theorem put (hf : FixedOnce s) {gone : List ArgsPtr} (hspec : PutSpec s s' a gone)
    (hoff : ∀ t, a ∉ s.fixedCacheMap.list t) : FixedOnce s' := by
  obtain ⟨kept, hkept, hvalues⟩ := hspec.values
  have hgone : ∀ t, ∀ b ∈ s.fixedCacheMap.list t, b ∉ kept ∧ b ∉ gone := fun t b hb =>
    not_or.mp fun hor => hf.off t b hb (hvalues ▸ List.mem_append.mpr hor)
  constructor
  · intro t n hn
    rw [hspec.fixed] at hn
    rw [hspec.args, hspec.live]
    obtain ⟨hlive, hseed⟩ := hf.live t n hn
    exact ⟨⟨hlive, (hgone t _ hn).2⟩, hseed⟩
  · intro t b hb hl
    rw [hspec.fixed] at hb
    rcases List.mem_cons.mp (hkept ▸ hl) with rfl | hl
    · exact hoff t hb
    · exact (hgone t b hb).1 hl
  · exact fun t => hspec.fixed ▸ hf.nodup t

/-- Creating args, which may evict others, keeps the fixed ones apart. -/
theorem createArgs (hf : FixedOnce s) (h : PoolInv none s) (e : Nat) :
    FixedOnce (s.createArgs e) := by
  have hnew : ∀ t, .heap s.nextArgs ∉ s.fixedCacheMap.list t := fun t ht =>
    absurd (h.known t _ ht) (Nat.lt_irrefl _)
  have hfixed : ∀ {t n}, .heap n ∈ s.fixedCacheMap.list t → ArgsPtr.heap n ≠ .heap s.nextArgs :=
    fun hn heq => hnew _ (heq ▸ hn)
  have hmiss : .heap s.nextArgs ∉ s.cacheList.values := fun hl => by
    obtain ⟨-, n, hn, heq⟩ := h.listed _ hl
    exact absurd (ArgsPtr.heap.inj heq) (Nat.ne_of_gt hn)
  unfold ArgsPool.createArgs
  split
  next =>
    have halloc : FixedOnce (s.allocate e) := by
      refine ⟨fun t n hn => ?_, hf.off, hf.nodup⟩
      obtain ⟨⟨hdel, m, hm, hmn⟩, hseed⟩ := hf.live t n hn
      refine ⟨⟨hdel, m, Nat.lt_succ_of_lt hm, hmn⟩, ?_⟩
      exact (congrArg Args.seed (Function.update_of_ne (hfixed hn) _ _)).trans hseed
    obtain ⟨gone, hspec, -⟩ := (h.allocate e).put hmiss
      ⟨h.fresh s.nextArgs (Nat.le_refl _), s.nextArgs, Nat.lt_succ_self _, rfl⟩
    have hput := halloc.put hspec hnew
    refine ⟨fun t n hn => ?_, hput.off, hput.nodup⟩
    obtain ⟨hlive, hseed⟩ := hput.live t n hn
    have hne := hfixed (hspec.fixed ▸ hn)
    exact ⟨hlive, (congrArg Args.seed (Function.update_of_ne hne _ _)).trans hseed⟩
  next => exact hf.frame (fun _ => rfl) (fun _ => Iff.rfl) (fun _ => rfl) fun _ => Iff.rfl

/-- Fixed once, an args is in no list of the map when it is erased from one. -/
theorem erase (hf : FixedOnce s) (hlive : s.Live a) :
    FixedOnce { s with fixedCacheMap := s.fixedCacheMap.erase (s.args a).seed a } ∧
      ∀ t, a ∉ (s.fixedCacheMap.erase (s.args a).seed a).list t := by
  have hsub : ∀ t b, b ∈ (s.fixedCacheMap.erase (s.args a).seed a).list t →
      b ∈ s.fixedCacheMap.list t := by
    intro t b hb
    rw [SeedMap.list_erase] at hb
    split at hb
    next ht => exact ht ▸ List.mem_of_mem_erase hb
    next => exact hb
  refine ⟨⟨fun t n hn => hf.live t n (hsub t _ hn), fun t b hb => hf.off t b (hsub t b hb),
    fun t => ?_⟩, fun t ht => ?_⟩
  · show ((s.fixedCacheMap.erase _ a).list t).Nodup
    rw [SeedMap.list_erase]
    split
    next => exact (hf.nodup _).erase a
    next => exact hf.nodup t
  · rw [SeedMap.list_erase] at ht
    split at ht
    next => exact (hf.nodup _).not_mem_erase ht
    next hne =>
      obtain ⟨-, n, -, rfl⟩ := hlive
      exact hne (hf.live t n ht).2.symm

theorem releaseFixedCache (hf : FixedOnce s) (h : PoolInv none s)
    (ha : (s.executor e).args = some a)
    (hown : a = .own e → a ∉ s.fixedCacheMap.list (s.args a).seed) :
    FixedOnce (s.releaseFixedCache a) := by
  by_cases hfixed : a ∈ s.fixedCacheMap.list (s.args a).seed
  · obtain ⟨hlive, -⟩ := (h.held e a ha).resolve_left fun heq => hown heq hfixed
    obtain ⟨gone, hspec, -⟩ := (h.exempt a).put (hf.off _ a hfixed) hlive
    obtain ⟨herase, hnot⟩ := hf.erase hlive
    rw [releaseFixedCache_of_mem hfixed]
    exact herase.put (a := a) { hspec with fixed := by rw [hspec.fixed] } hnot
  · obtain ⟨m, hm, hlist⟩ := releaseFixedCache_of_not hfixed
    rw [hm]
    exact hf.frame (fun _ => rfl) (fun _ => Iff.rfl) hlist fun _ => Iff.rfl

/-- Every event keeps the fixed args apart. -/
theorem step {event : PoolEvent} (hf : FixedOnce s) (h : PoolInv none s) (hok : s.KeepsOwn event)
    (hstep : s.step hash event = some s') : FixedOnce s' := by
  cases event with
  | matchArgs e key =>
    obtain ⟨-, hs⟩ := Option.ite_none_right_eq_some.mp hstep
    exact Option.some.inj hs ▸ hf.matchArgs e key
  | disableCache e =>
    obtain ⟨-, hs⟩ := Option.ite_none_right_eq_some.mp hstep
    refine Option.some.inj hs ▸ hf.frame (fun _ => rfl) (fun _ => Iff.rfl) (fun _ => rfl) ?_
    exact fun _ => Iff.rfl
  | createArgs e =>
    obtain ⟨-, hs⟩ := Option.ite_none_right_eq_some.mp hstep
    exact Option.some.inj hs ▸ hf.createArgs h e
  | setRepeatable e =>
    obtain ⟨a, ha, rfl⟩ := Option.map_eq_some_iff.mp hstep
    exact hf.fixCache h ha (hok a ha)
  | clear e =>
    obtain ⟨a, ha, rfl⟩ := Option.map_eq_some_iff.mp hstep
    have hrel := hf.releaseFixedCache h ha fun heq => by
      subst heq
      exact hok ha
    exact hrel.frame (fun n => (setVist_frame _ a false (.heap n)).1) (fun _ => Iff.rfl)
      (fun _ => rfl) fun _ => Iff.rfl

end FixedOnce

/-! ## What `Finalize` deletes -/

section

variable (h : PoolInv none s)
include h

theorem PoolInv.nodup_all : s.argsMap.all.Nodup :=
  SeedMap.nodup_all h.nodup fun t u a ht hu =>
    (h.mapped t a ht (by simp)).2.1.symm.trans (h.mapped u a hu (by simp)).2.1

/-- `Finalize` deletes what `argsMap` has, and each once. -/
theorem PoolInv.finalize_deletions (a : ArgsPtr) :
    (a ∈ s.argsMap.all → s.Live a ∧ s.finalize.deletions a = 1) ∧
      (a ∉ s.argsMap.all → s.finalize.deletions a = s.deletions a) := by
  constructor
  · intro ha
    obtain ⟨t, ht⟩ := SeedMap.mem_all.mp ha
    have hlive := h.listed a (h.mapped t a ht (by simp)).1
    refine ⟨hlive, ?_⟩
    show s.deletions a + s.argsMap.all.count a = 1
    rw [hlive.1, List.count_eq_one_of_mem h.nodup_all ha]
  · intro ha
    show s.deletions a + s.argsMap.all.count a = s.deletions a
    rw [List.count_eq_zero_of_not_mem ha, Nat.add_zero]

theorem PoolInv.finalize_once (a : ArgsPtr) : s.finalize.deletions a ≤ 1 := by
  by_cases ha : a ∈ s.argsMap.all
  · exact Nat.le_of_eq ((h.finalize_deletions a).1 ha).2
  · rw [(h.finalize_deletions a).2 ha]
    exact h.once a

theorem PoolInv.finalize_allocated {a : ArgsPtr}
    (ha : ¬ ∃ n < s.nextArgs, a = .heap n) : s.finalize.deletions a = 0 := by
  have hnot : a ∉ s.argsMap.all := fun hmem => ha ((h.finalize_deletions a).1 hmem).1.2
  rw [(h.finalize_deletions a).2 hnot]
  cases a with
  | own e => exact h.own e
  | heap n => exact h.fresh n (Nat.le_of_not_lt fun hn => ha ⟨n, hn, rfl⟩)

theorem PoolInv.finalize_all_iff :
    (∀ n < s.nextArgs, s.finalize.deletions (.heap n) = 1) ↔
      ∀ a, s.Live a → a ∈ s.argsMap.list (s.args a).seed := by
  constructor
  · rintro hall a ⟨hdel, n, hn, rfl⟩
    by_cases ha : ArgsPtr.heap n ∈ s.argsMap.all
    · obtain ⟨t, ht⟩ := SeedMap.mem_all.mp ha
      exact (h.mapped t _ ht (by simp)).2.1.symm ▸ ht
    · have hone := hall n hn
      rw [(h.finalize_deletions _).2 ha, hdel] at hone
      exact absurd hone Nat.zero_ne_one
  · intro hmap n hn
    by_cases ha : ArgsPtr.heap n ∈ s.argsMap.all
    · exact ((h.finalize_deletions _).1 ha).2
    · -- it is not alive, or `argsMap` would have it
      have hdel : s.deletions (.heap n) ≠ 0 := fun hdel =>
        ha (SeedMap.mem_all.mpr ⟨_, hmap _ ⟨hdel, n, hn, rfl⟩⟩)
      have hone := h.once (.heap n)
      rw [(h.finalize_deletions _).2 ha]
      omega

end

/-- In a run that releases no fixed `ownArgs` and fixes nothing twice, every pointer deleted up
to the end of `Finalize` was allocated and is deleted once; nothing is left over exactly if
`argsMap` has everything that is alive when `Finalize` starts; and no pointer to a deleted args
is ever left in `fixedCacheMap`. -/
theorem pool_deletes_once (hash : List Byte → Nat) (maxCacheNum : Nat) {events : List PoolEvent}
    (hok : Along (step hash) KeepsOwn (init maxCacheNum) events)
    (hrun : run (step hash) (init maxCacheNum) events = some s) :
    ((∀ a, s.finalize.deletions a ≤ 1) ∧
      ∀ a, (¬ ∃ n < s.nextArgs, a = .heap n) → s.finalize.deletions a = 0) ∧
    ((∀ n < s.nextArgs, s.finalize.deletions (.heap n) = 1) ↔
      ∀ a, s.Live a → a ∈ s.argsMap.list (s.args a).seed) ∧
    ∀ t n, .heap n ∈ s.fixedCacheMap.list t → s.Live (.heap n) := by
  obtain ⟨h, hf⟩ := hok.invariant (I := fun s => PoolInv none s ∧ FixedOnce s)
    (fun _ _ _ hs hk hstep => ⟨hs.1.step hk hstep, hs.2.step hs.1 hk hstep⟩) events
    ⟨inv_init maxCacheNum, ⟨fun _ _ hn => absurd hn List.not_mem_nil,
      fun _ _ ha => absurd ha List.not_mem_nil, fun _ => List.nodup_nil⟩⟩ hrun
  exact ⟨⟨h.finalize_once, fun _ => h.finalize_allocated⟩, h.finalize_all_iff,
    fun t n hn => (hf.live t n hn).1⟩

/-- An args is created and made repeatable, released, and evicted by the next one. -/
def evictRun : List PoolEvent :=
  [.matchArgs 0 [1], .createArgs 0, .setRepeatable 0, .clear 0, .matchArgs 0 [2], .createArgs 0]

theorem pool_deletes_once_evict : ∃ s, run (step List.length) (init 1) evictRun = some s ∧
    s.deletions (.heap 0) = 1 ∧
    ((∀ a, s.finalize.deletions a ≤ 1) ∧
      ∀ a, (¬ ∃ n < s.nextArgs, a = .heap n) → s.finalize.deletions a = 0) ∧
    ((∀ n < s.nextArgs, s.finalize.deletions (.heap n) = 1) ↔
      ∀ a, s.Live a → a ∈ s.argsMap.list (s.args a).seed) ∧
    ∀ t n, .heap n ∈ s.fixedCacheMap.list t → s.Live (.heap n) := by
  have hok : Along (step List.length) KeepsOwn (init 1) evictRun := by
    refine ⟨trivial, fun _ h₁ => ⟨trivial, fun _ h₂ => ⟨fun a ha => ?_, fun _ h₃ => ⟨?_,
      fun _ _ => ⟨trivial, fun _ _ => ⟨trivial, fun _ _ => trivial⟩⟩⟩⟩⟩⟩
    · cases h₁
      cases h₂
      cases ha
      decide
    · cases h₁
      cases h₂
      cases h₃
      exact fun h => absurd h (by decide)
  exact ⟨_, rfl, rfl, pool_deletes_once List.length 1 hok rfl⟩

/-- An executor without the cache is made repeatable and cleared; its `ownArgs` is then the
oldest on the list. -/
theorem own_deleted :
    (run (step List.length) (init 1) [.disableCache 0, .createArgs 0, .setRepeatable 0,
      .clear 0, .matchArgs 1 [1], .createArgs 1]).map (fun s => s.deletions (.own 0)) = some 1 ∧
    (run (step List.length) (init 1)
      [.matchArgs 0 [1], .createArgs 0, .setRepeatable 0, .clear 0]).map
      (fun s => (s.finalize.deletions (.heap 0), decide (0 < s.nextArgs))) = some (0, true) := by
  decide

end ArgsPool

end OpBase.Indv
