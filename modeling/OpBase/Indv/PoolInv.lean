import OpBase.Indv.ArgsPool

/-!
# What holds of the pool in every run

`PoolInv`: the list and `argsCache` go together, everything on the list is alive,
what `argsMap` has is on the list, and an args in use is in `argsMap` as long as it
is on the list. What is fixed and given back again is on the list and no longer in
`argsMap`; the invariant allows for it.

Between two edits an args may be in transit: `PoolInv (some a)` asks nothing of the
places of `a`.

> `evict_spec`: what the loop of `Put` does, whatever the pool.
>
> `PoolInv.step`: every step keeps the invariant, if no executor gives back a fixed
> `ownArgs`.
-/

namespace OpBase.Indv

open List

open Function (update update_of_ne update_self)
open OpBase.Lib
open Option (getD_some some.inj)
open NodeList (Indexes)

namespace SeedMap

section

variable (m : SeedMap) (seed t : Nat)

theorem list_insert (as : List ArgsPtr) :
    list (AList.insert seed as m) t = if t = seed then as else m.list t := by
  unfold list
  by_cases h : t = seed
  · rw [if_pos h, h, AList.lookup_insert, getD_some]
  · rw [if_neg h, AList.lookup_insert_ne h]

/-- Erasing takes the args out of the list of that seed. -/
theorem list_erase (a : ArgsPtr) :
    (m.erase seed a).list t = if t = seed then (m.list seed).erase a else m.list t := by
  unfold erase
  split
  next hnil =>
    show (AList.lookup t (AList.erase seed m)).getD [] = _
    by_cases h : t = seed
    · rw [if_pos h, h, AList.lookup_erase, hnil, Option.getD_none]
    · rw [if_neg h, AList.lookup_erase_ne h]
      rfl
  next => exact list_insert m seed t _

theorem list_takeOut (a : ArgsPtr) :
    (m.takeOut seed a).list t = if t = seed then (m.list seed).erase a else m.list t := by
  unfold takeOut
  split
  next => exact list_erase m seed t a
  next hnot =>
    rw [list_insert]
    split
    next h => rw [erase_of_not_mem hnot]
    next => rfl

theorem list_push (a : ArgsPtr) :
    (m.push seed a).list t = if t = seed then m.list seed ++ [a] else m.list t :=
  list_insert m seed t _

end

variable {m : SeedMap} {seed t : Nat} {a b : ArgsPtr}

theorem nodup_takeOut (h : ∀ t, (m.list t).Nodup) : ((m.takeOut seed a).list t).Nodup := by
  rw [list_takeOut]
  split
  next => exact (h seed).erase a
  next => exact h t

theorem mem_takeOut (h : (m.list seed).Nodup) :
    b ∈ (m.takeOut seed a).list t ↔ b ∈ m.list t ∧ ¬ (b = a ∧ t = seed) := by
  rw [list_takeOut]
  split
  next ht =>
    subst ht
    rw [h.mem_erase_iff]
    tauto
  next ht =>
    exact ⟨fun hb => ⟨hb, fun hand => ht hand.2⟩, fun hb => hb.1⟩

theorem mem_push : b ∈ (m.push seed a).list t ↔ b ∈ m.list t ∨ (b = a ∧ t = seed) := by
  rw [list_push]
  split
  next ht =>
    subst ht
    rw [mem_append, mem_singleton]
    exact or_congr_right ⟨fun h => ⟨h, rfl⟩, fun h => h.1⟩
  next ht => exact ⟨Or.inl, fun hb => hb.elim id fun hand => absurd hand.2 ht⟩

end SeedMap

namespace ArgsPool

variable {s s' : ArgsPool} {a b : ArgsPtr} {e : Nat} {x : Option ArgsPtr}

/-- `argsCache` points at the place of each args on the list. -/
def Indexed (s : ArgsPool) : Prop :=
  Indexes id (fun a => s.argsCache.lookup a) s.cacheList

theorem Indexed.nodup (h : s.Indexed) : s.cacheList.values.Nodup := by
  have := h.keys_nodup
  rwa [map_id] at this

theorem Indexed.lookup_eq_none (h : s.Indexed) (ha : a ∉ s.cacheList.values) :
    s.argsCache.lookup a = none :=
  h.eq_none_iff.mpr (by rwa [map_id])

/-! ## Eviction -/

/-- From `s` to `s'` the args `gone` were deleted, from the end of the list. -/
structure Evicts (s s' : ArgsPool) (gone : List ArgsPtr) : Prop where
  values : s.cacheList.values = s'.cacheList.values ++ gone
  idle : ∀ a ∈ gone, (s.args a).isVist = false
  index : s'.Indexed
  mem_map : ∀ t b, b ∈ s'.argsMap.list t ↔ b ∈ s.argsMap.list t ∧ ¬ (b ∈ gone ∧ (s.args b).seed = t)
  nodup : ∀ t, (s'.argsMap.list t).Nodup
  deletions : ∀ b, s'.deletions b = s.deletions b + gone.count b
  args : s'.args = s.args
  fixed : s'.fixedCacheMap = s.fixedCacheMap
  nextArgs : s'.nextArgs = s.nextArgs
  executor : s'.executor = s.executor

theorem Evicts.nothing (hindex : s.Indexed) (hnodup : ∀ t, (s.argsMap.list t).Nodup) :
    Evicts s s [] where
  values := (append_nil _).symm
  idle _ ha := absurd ha not_mem_nil
  index := hindex
  mem_map _ _ := ⟨fun hb => ⟨hb, fun h => absurd h.1 not_mem_nil⟩, fun hb => hb.1⟩
  nodup := hnodup
  deletions _ := rfl
  args := rfl
  fixed := rfl
  nextArgs := rfl
  executor := rfl

/-- By induction on the number left: what the evictions delete, and what they leave. -/
theorem evict_spec : ∀ (n : Nat) (s : ArgsPool), s.Indexed → (∀ t, (s.argsMap.list t).Nodup) →
    ∃ gone, Evicts s (evict n s) gone
  | 0, s, hindex, hnodup => ⟨[], Evicts.nothing hindex hnodup⟩
  | n + 1, s, hindex, hnodup => by
    unfold evict
    split
    next =>
      split
      next => exact ⟨[], Evicts.nothing hindex hnodup⟩
      next it tmp hback =>
        split
        next => exact ⟨[], Evicts.nothing hindex hnodup⟩
        -- The last entry is idle: it leaves the list, its bucket and the cache; the loop goes on.
        next hidle =>
          have hindex' : ({ s.eraseArgs tmp with cacheList := s.cacheList.popBack } :
              ArgsPool).Indexed := by
            show Indexes id (fun a => (s.argsCache.erase tmp).lookup a) s.cacheList.popBack
            rw [lookup_erase_eq]
            exact Indexes.popBack hindex hback
          have hvalues : s.cacheList.values = s.cacheList.popBack.values ++ [tmp] := by
            obtain ⟨init, hinit⟩ := getLast?_eq_some_iff.mp hback
            show s.cacheList.nodes.map Prod.snd = s.cacheList.nodes.dropLast.map Prod.snd ++ [tmp]
            rw [hinit, dropLast_concat, map_append]
            rfl
          obtain ⟨gone, hgone⟩ := evict_spec n _ hindex' fun t =>
            SeedMap.nodup_takeOut hnodup
          refine ⟨gone ++ [tmp], ?_, ?_, hgone.index, fun t b => ?_, hgone.nodup, fun b => ?_,
            hgone.args, hgone.fixed, hgone.nextArgs, hgone.executor⟩
          · rw [hvalues, ← append_assoc]
            exact congrArg (· ++ [tmp]) hgone.values
          · intro a ha
            rcases mem_append.mp ha with ha | ha
            · exact hgone.idle a ha
            · rw [mem_singleton.mp ha]
              exact Bool.eq_false_iff.mpr hidle
          · rw [hgone.mem_map t b]
            show b ∈ (s.argsMap.takeOut (s.args tmp).seed tmp).list t ∧ ¬ (b ∈ gone ∧
              (s.args b).seed = t) ↔ _
            rw [SeedMap.mem_takeOut (hnodup _), mem_append, mem_singleton]
            constructor
            · intro ⟨⟨hb, htmp⟩, hnot⟩
              refine ⟨hb, ?_⟩
              rintro ⟨hgone | rfl, ht⟩
              · exact hnot ⟨hgone, ht⟩
              · exact htmp ⟨rfl, ht.symm⟩
            · intro ⟨hb, hnot⟩
              refine ⟨⟨hb, ?_⟩, fun h => hnot ⟨Or.inl h.1, h.2⟩⟩
              rintro ⟨rfl, ht⟩
              exact hnot ⟨Or.inr rfl, ht.symm⟩
          · rw [hgone.deletions b, List.count_append]
            show update s.deletions tmp (s.deletions tmp + 1) b + gone.count b = _
            by_cases hb : b = tmp
            · subst hb
              rw [update_self, count_singleton_self]
              omega
            · rw [update_of_ne hb, count_singleton, beq_false_of_ne (Ne.symm hb)]
              simp only [Bool.false_eq_true, if_false, Nat.add_zero]
    next => exact ⟨[], Evicts.nothing hindex hnodup⟩

theorem evict_maxCacheNum : ∀ (n : Nat) (s : ArgsPool), (evict n s).maxCacheNum = s.maxCacheNum
  | 0, _ => rfl
  | n + 1, s => by
    unfold evict
    split
    next =>
      split
      next => rfl
      next =>
        split
        next => rfl
        next => exact evict_maxCacheNum n _
    next => rfl

namespace Evicts

variable {gone : List ArgsPtr}

section

variable (h : Evicts s s' gone)
include h

theorem nodup_values (hindex : s.Indexed) :
    (s'.cacheList.values ++ gone).Nodup := h.values ▸ hindex.nodup

theorem not_gone (hindex : s.Indexed) (ha : a ∈ s'.cacheList.values) :
    a ∉ gone := fun hgone =>
  (nodup_append.mp (h.nodup_values hindex)).2.2 a ha a hgone rfl

theorem mem_values : a ∈ s.cacheList.values ↔
    a ∈ s'.cacheList.values ∨ a ∈ gone := by
  rw [h.values, mem_append]

theorem deletions_of_not_gone (ha : a ∉ gone) :
    s'.deletions a = s.deletions a := by
  rw [h.deletions, count_eq_zero_of_not_mem ha, Nat.add_zero]

theorem deletions_of_gone (hindex : s.Indexed) (ha : a ∈ gone) :
    s'.deletions a = s.deletions a + 1 := by
  have hnodup := (nodup_append.mp (h.nodup_values hindex)).2.1
  rw [h.deletions, count_eq_one_of_mem hnodup ha]

end

end Evicts

/-! ## The invariant -/

/-- Allocated and not deleted. -/
def Live (s : ArgsPool) (a : ArgsPtr) : Prop := s.deletions a = 0 ∧ ∃ n < s.nextArgs, a = .heap n

structure PoolInv (x : Option ArgsPtr) (s : ArgsPool) : Prop where
  index : s.Indexed
  nodup : ∀ t, (s.argsMap.list t).Nodup
  listed : ∀ a ∈ s.cacheList.values, s.Live a
  mapped : ∀ t, ∀ a ∈ s.argsMap.list t, x ≠ some a →
    a ∈ s.cacheList.values ∧ (s.args a).seed = t ∧ a ∉ s.fixedCacheMap.list t
  placed : ∀ a, s.Live a → x ≠ some a →
    a ∈ s.cacheList.values ∨ a ∈ s.fixedCacheMap.list (s.args a).seed
  known : ∀ t n, .heap n ∈ s.fixedCacheMap.list t → n < s.nextArgs
  held : ∀ e a, (s.executor e).args = some a → a = .own e ∨ (s.Live a ∧ (s.args a).isVist = true)
  heldMapped : ∀ e a, (s.executor e).args = some a → x ≠ some a → a ∈ s.cacheList.values →
    a ∈ s.argsMap.list (s.args a).seed
  heldOnce : ∀ e f a, (s.executor e).args = some a → (s.executor f).args = some a → e = f
  once : ∀ a, s.deletions a ≤ 1
  own : ∀ e, s.deletions (.own e) = 0
  fresh : ∀ n, s.nextArgs ≤ n → s.deletions (.heap n) = 0
  visited : ∀ a, (s.args a).isVist = true → s.deletions a = 0

/-- An empty pool. -/
theorem inv_init (maxCacheNum : Nat) : PoolInv none (init maxCacheNum) where
  index := Indexes.empty
  nodup _ := nodup_nil
  listed _ ha := absurd ha not_mem_nil
  mapped _ _ ha := absurd ha not_mem_nil
  placed _ ha := by
    obtain ⟨-, n, hn, -⟩ := ha
    exact absurd hn (Nat.not_lt_zero n)
  known _ _ hn := absurd hn not_mem_nil
  held _ _ h := absurd h (by simp [init])
  heldMapped _ _ h := absurd h (by simp [init])
  heldOnce _ _ _ h := absurd h (by simp [init])
  once _ := Nat.zero_le 1
  own _ := rfl
  fresh _ _ := rfl
  visited _ _ := rfl

theorem not_live_own : ¬ s.Live (.own e) := fun ⟨_, n, _, h⟩ => by cases h

namespace PoolInv

/-- The invariant with an exception is weaker. -/
theorem exempt (h : PoolInv none s) (a : ArgsPtr) : PoolInv (some a) s :=
  { h with
    mapped := fun t b hb _ => h.mapped t b hb (by simp)
    placed := fun b hb _ => h.placed b hb (by simp)
    heldMapped := fun e b hb _ => h.heldMapped e b hb (by simp) }

theorem arrive (h : PoolInv (some a) s)
    (hmapped : ∀ t, a ∈ s.argsMap.list t →
      a ∈ s.cacheList.values ∧ (s.args a).seed = t ∧ a ∉ s.fixedCacheMap.list t)
    (hplaced : s.Live a → a ∈ s.cacheList.values ∨ a ∈ s.fixedCacheMap.list (s.args a).seed)
    (hheld : ∀ e, (s.executor e).args = some a → a ∈ s.cacheList.values →
      a ∈ s.argsMap.list (s.args a).seed) : PoolInv none s := by
  refine { h with mapped := fun t b hb _ => ?_, placed := fun b hb _ => ?_,
                  heldMapped := fun e b hb _ hlist => ?_ }
  · by_cases hab : a = b
    · subst hab
      exact hmapped t hb
    · exact h.mapped t b hb fun heq => hab (some.inj heq)
  · by_cases hab : a = b
    · subst hab
      exact hplaced hb
    · exact h.placed b hb fun heq => hab (some.inj heq)
  · by_cases hab : a = b
    · subst hab
      exact hheld e hb hlist
    · exact h.heldMapped e b hb (fun heq => hab (some.inj heq)) hlist

/-- Only the `ownArgs` of an executor is not live. -/
theorem not_mapped_own (h : PoolInv none s) (t : Nat) : .own e ∉ s.argsMap.list t := fun hmem =>
  not_live_own (h.listed _ (h.mapped t _ hmem (by simp)).1)

variable {gone : List ArgsPtr}

theorem live_evicts (h : PoolInv x s) (hgone : Evicts s s' gone) (b : ArgsPtr) :
    s'.Live b ↔ s.Live b ∧ b ∉ gone := by
  unfold Live
  rw [hgone.nextArgs]
  by_cases hb : b ∈ gone
  · rw [hgone.deletions_of_gone h.index hb]
    exact iff_of_false (fun hand => absurd hand.1 (Nat.succ_ne_zero _)) fun hand => hand.2 hb
  · rw [hgone.deletions_of_not_gone hb]
    exact ⟨fun hand => ⟨hand, hb⟩, fun hand => hand.1⟩

/-- Evictions keep the invariant: what they delete is in no index. -/
theorem evicts (h : PoolInv x s) (hgone : Evicts s s' gone) :
    PoolInv x s' := by
  have hlive := h.live_evicts hgone
  have hdelete : ∀ b ∈ gone, s.deletions b = 0 := fun b hb =>
    (h.listed b (hgone.mem_values.mpr (Or.inr hb))).1
  constructor
  · exact hgone.index
  · exact hgone.nodup
  · intro b hb
    exact (hlive b).mpr ⟨h.listed b (hgone.mem_values.mpr (Or.inl hb)), hgone.not_gone h.index hb⟩
  · intro t b hb hx
    obtain ⟨hb, hnot⟩ := (hgone.mem_map t b).mp hb
    obtain ⟨hlist, hseed, hfixed⟩ := h.mapped t b hb hx
    rw [hgone.args, hgone.fixed]
    exact ⟨(hgone.mem_values.mp hlist).resolve_right fun hg => hnot ⟨hg, hseed⟩, hseed, hfixed⟩
  · intro b hb hx
    obtain ⟨hb, hnot⟩ := (hlive b).mp hb
    rw [hgone.args, hgone.fixed]
    exact (h.placed b hb hx).imp_left fun hlist => (hgone.mem_values.mp hlist).resolve_right hnot
  · rw [hgone.fixed, hgone.nextArgs]
    exact h.known
  · intro e b hb
    rw [hgone.executor] at hb
    rw [hgone.args]
    -- What an executor holds is in use, and only idle arguments are evicted.
    refine (h.held e b hb).imp_right fun ⟨hb, hvist⟩ => ⟨(hlive b).mpr ⟨hb, fun hg => ?_⟩, hvist⟩
    exact absurd (hgone.idle b hg) (by rw [hvist]; exact Bool.true_eq_false.mp)
  · intro e b hb hx hlist
    rw [hgone.executor] at hb
    rw [hgone.args]
    refine (hgone.mem_map _ b).mpr ⟨h.heldMapped e b hb hx ?_, fun hand => ?_⟩
    · exact hgone.mem_values.mpr (Or.inl hlist)
    · exact hgone.not_gone h.index hlist hand.1
  · rw [hgone.executor]
    exact h.heldOnce
  · intro b
    by_cases hb : b ∈ gone
    · rw [hgone.deletions_of_gone h.index hb, hdelete b hb]
    · rw [hgone.deletions_of_not_gone hb]
      exact h.once b
  · intro e
    have hown : .own e ∉ gone := fun hg =>
      not_live_own (h.listed _ (hgone.mem_values.mpr (Or.inr hg)))
    rw [hgone.deletions_of_not_gone hown]
    exact h.own e
  · intro n hn
    rw [hgone.nextArgs] at hn
    have hnew : .heap n ∉ gone := fun hg => by
      obtain ⟨-, m, hm, hmn⟩ := h.listed _ (hgone.mem_values.mpr (Or.inr hg))
      rw [ArgsPtr.heap.inj hmn] at hn
      exact Nat.not_lt.mpr hn hm
    rw [hgone.deletions_of_not_gone hnew]
    exact h.fresh n hn
  · intro b hb
    rw [hgone.args] at hb
    rw [hgone.deletions_of_not_gone fun hg => ?_]
    · exact h.visited b hb
    · exact absurd (hgone.idle b hg) (by rw [hb]; exact Bool.true_eq_false.mp)

/-! ## The edits -/

/-- A change of the excepted args keeps the invariant. -/
theorem setArgs (h : PoolInv (some a) s) (args : Args)
    (hdel : args.isVist = true → s.deletions a = 0)
    (hheld : ∀ e, (s.executor e).args = some a → a = .own e ∨ args.isVist = true) :
    PoolInv (some a) (s.setArgs a args) := by
  -- only `a` changes
  have hother : ∀ b, some a ≠ some b → (s.setArgs a args).args b = s.args b := fun b hb =>
    update_of_ne (fun hba => hb (congrArg some hba.symm)) _ _
  refine { h with mapped := ?_, placed := ?_, held := ?_, heldMapped := ?_, visited := ?_ }
  · intro t b hb hx
    rw [hother b hx]
    exact h.mapped t b hb hx
  · intro b hb hx
    rw [hother b hx]
    exact h.placed b hb hx
  · intro e b hb
    by_cases hab : a = b
    · subst hab
      refine (h.held e a hb).imp_right fun ⟨hlive, hvist⟩ => ⟨hlive, ?_⟩
      show (update s.args a args a).isVist = true
      rw [update_self]
      refine (hheld e hb).resolve_left fun hown => ?_
      exact not_live_own (hown ▸ hlive)
    · rw [hother b fun heq => hab (some.inj heq)]
      exact h.held e b hb
  · intro e b hb hx hlist
    rw [hother b hx]
    exact h.heldMapped e b hb hx hlist
  · intro b hb
    by_cases hab : a = b
    · subst hab
      have hb : (update s.args a args a).isVist = true := hb
      rw [update_self] at hb
      exact hdel hb
    · rw [hother b fun heq => hab (some.inj heq)] at hb
      exact h.visited b hb

theorem setOwn (h : PoolInv none s) (e : Nat) (args : Args) :
    PoolInv none (s.setArgs (.own e) args) := by
  have hmap := h.not_mapped_own (e := e)
  refine PoolInv.arrive ((h.exempt (.own e)).setArgs _ (fun _ => h.own e) fun f hf => ?_)
    (fun t ht => absurd ht (hmap t)) (fun hlive => absurd hlive not_live_own)
    (fun _ _ hlist => absurd (h.listed _ hlist) not_live_own)
  exact Or.inl ((h.held f _ hf).resolve_right fun hand => not_live_own hand.1)

/-- An executor may keep the args that it has, or take its own. -/
theorem setExecutor (h : PoolInv x s) (user : ArgsUser)
    (hu : ∀ a, user.args = some a → (s.executor e).args = some a ∨ a = .own e) :
    PoolInv x (s.setExecutor e user) := by
  -- the only pointer that an executor gains is its own
  have hexec : ∀ f b, ((s.setExecutor e user).executor f).args = some b →
      (s.executor f).args = some b ∨ (b = .own e ∧ f = e) := by
    intro f b hb
    by_cases hf : f = e
    · subst hf
      have hb : (update s.executor f user f).args = some b := hb
      rw [update_self] at hb
      exact (hu b hb).imp_right fun hown => ⟨hown, rfl⟩
    · have hb : (update s.executor e user f).args = some b := hb
      rw [update_of_ne hf] at hb
      exact Or.inl hb
  have hown : ∀ f, (s.executor f).args = some (.own e) → f = e := fun f hf =>
    (h.held f _ hf).elim (fun heq => (ArgsPtr.own.inj heq).symm) fun hand =>
      absurd hand.1 not_live_own
  refine { h with held := ?_, heldMapped := ?_, heldOnce := ?_ }
  · intro f b hb
    rcases hexec f b hb with hb | ⟨rfl, rfl⟩
    · exact h.held f b hb
    · exact Or.inl rfl
  · intro f b hb hx hlist
    rcases hexec f b hb with hb | ⟨rfl, rfl⟩
    · exact h.heldMapped f b hb hx hlist
    · exact absurd (h.listed _ hlist) not_live_own
  · intro f g b hf hg
    rcases hexec f b hf with hf | ⟨rfl, rfl⟩
    · rcases hexec g b hg with hg | ⟨rfl, rfl⟩
      · exact h.heldOnce f g b hf hg
      · exact hown f hf
    · rcases hexec g _ hg with hg | ⟨-, rfl⟩
      · exact (hown g hg).symm
      · rfl

/-- The excepted args are given to an executor. -/
theorem give (h : PoolInv (some a) s) (user : ArgsUser) (hu : user.args = some a) (hlive : s.Live a)
    (hvist : (s.args a).isVist = true) (hfree : ∀ f, (s.executor f).args ≠ some a) :
    PoolInv (some a) (s.setExecutor e user) := by
  -- Only `e` gains something by the step, and that is `a`.
  have hexec : ∀ f b, ((s.setExecutor e user).executor f).args = some b →
      (s.executor f).args = some b ∨ (b = a ∧ f = e) := by
    intro f b hb
    by_cases hf : f = e
    · subst hf
      have hb : (update s.executor f user f).args = some b := hb
      rw [update_self, hu] at hb
      exact Or.inr ⟨(some.inj hb).symm, rfl⟩
    · have hb : (update s.executor e user f).args = some b := hb
      rw [update_of_ne hf] at hb
      exact Or.inl hb
  refine { h with held := ?_, heldMapped := ?_, heldOnce := ?_ }
  · intro f b hb
    rcases hexec f b hb with hb | ⟨rfl, -⟩
    · exact h.held f b hb
    · exact Or.inr ⟨hlive, hvist⟩
  · intro f b hb hx hlist
    rcases hexec f b hb with hb | ⟨rfl, -⟩
    · exact h.heldMapped f b hb hx hlist
    · exact absurd rfl hx
  · intro f g b hf hg
    rcases hexec f b hf with hf' | ⟨hba, hfe⟩
    · rcases hexec g b hg with hg' | ⟨rfl, -⟩
      · exact h.heldOnce f g b hf' hg'
      · exact absurd hf' (hfree f)
    · rcases hexec g b hg with hg' | ⟨-, hge⟩
      · exact absurd (hba ▸ hg') (hfree g)
      · exact hfe.trans hge.symm

/-- `Get` moves an args to the front. -/
theorem get (h : PoolInv x s) (a : ArgsPtr) : PoolInv x (s.get a) := by
  unfold ArgsPool.get
  split
  next it hit =>
    have hvalues : ∀ b, b ∈ (s.cacheList.splice it).values ↔ b ∈ s.cacheList.values := by
      intro b
      rw [NodeList.mem_values, NodeList.mem_values]
      exact exists_congr fun _ => NodeList.mem_nodes_splice
    exact { h with
      index := Indexes.splice h.index
      listed := fun b hb => h.listed b ((hvalues b).mp hb)
      mapped := fun t b hb hx => by
        obtain ⟨hlist, hrest⟩ := h.mapped t b hb hx
        exact ⟨(hvalues b).mpr hlist, hrest⟩
      placed := fun b hb hx => (h.placed b hb hx).imp_left (hvalues b).mpr
      heldMapped := fun e b hb hx hlist => h.heldMapped e b hb hx ((hvalues b).mp hlist) }
  next => exact h

end PoolInv

/-- `Put` of an args that is not on the list. -/
structure PutSpec (s s' : ArgsPool) (a : ArgsPtr) (gone : List ArgsPtr) : Prop where
  values : ∃ kept, s'.cacheList.values = a :: kept ∧ s.cacheList.values = kept ++ gone
  mem_map : ∀ t b, b ∈ s'.argsMap.list t ↔ b ∈ s.argsMap.list t ∧ ¬ (b ∈ gone ∧ (s.args b).seed = t)
  live : ∀ b, s'.Live b ↔ s.Live b ∧ b ∉ gone
  args : s'.args = s.args
  fixed : s'.fixedCacheMap = s.fixedCacheMap
  nextArgs : s'.nextArgs = s.nextArgs
  executor : s'.executor = s.executor

/-- Putting the excepted args into the list may evict others. -/
theorem PoolInv.put (h : PoolInv (some a) s) (ha : a ∉ s.cacheList.values) (hlive : s.Live a) :
    ∃ gone, PutSpec s (s.put a) a gone ∧ PoolInv (some a) (s.put a) := by
  obtain ⟨gone, hgone⟩ := evict_spec s.cacheList.nodes.length s h.index h.nodup
  have hmid := h.evicts hgone
  have hlives := h.live_evicts hgone
  have hnot : a ∉ gone := fun hg => ha (hgone.mem_values.mpr (Or.inr hg))
  have hmiss : a ∉ (evict s.cacheList.nodes.length s).cacheList.values := fun hl =>
    ha (hgone.mem_values.mpr (Or.inl hl))
  refine ⟨gone, ⟨⟨_, rfl, hgone.values⟩, hgone.mem_map, hlives, hgone.args, hgone.fixed,
    hgone.nextArgs, hgone.executor⟩, ?_⟩
  refine { hmid with index := ?_, listed := ?_, mapped := ?_, placed := ?_, heldMapped := ?_ }
  · show Indexes id (fun b => ((evict _ s).argsCache.insert a _).lookup b) _
    rw [lookup_insert_eq]
    exact Indexes.pushFront hmid.index (hmid.index.lookup_eq_none hmiss)
  · intro b hb
    rcases mem_cons.mp (show b ∈ a :: _ from hb) with rfl | hb
    · exact (hlives b).mpr ⟨hlive, hnot⟩
    · exact hmid.listed b hb
  · intro t b hb hx
    obtain ⟨hlist, hrest⟩ := hmid.mapped t b hb hx
    exact ⟨mem_cons_of_mem a hlist, hrest⟩
  · intro b hb hx
    exact (hmid.placed b hb hx).imp_left (mem_cons_of_mem a)
  · intro e b hb hx hlist
    rcases mem_cons.mp (show b ∈ a :: _ from hlist) with rfl | hlist
    · exact absurd rfl hx
    · exact hmid.heldMapped e b hb hx hlist

/-! ## The operations -/

theorem setArgs_self (s : ArgsPool) (a : ArgsPtr) (args : Args) :
    (s.setArgs a args).args a = args := by
  show update s.args a args a = args
  rw [update_self]

theorem setVist_self (s : ArgsPool) (a : ArgsPtr) (isVist : Bool) :
    (s.setVist a isVist).args a = { s.args a with isVist } := setArgs_self s a _

/-- The mark leaves the key and the seed alone. -/
theorem setVist_frame (s : ArgsPool) (a : ArgsPtr) (isVist : Bool) (b : ArgsPtr) :
    ((s.setVist a isVist).args b).seed = (s.args b).seed ∧
      ((s.setVist a isVist).args b).inputKey = (s.args b).inputKey := by
  by_cases hb : b = a
  · rw [hb, setVist_self]
    exact ⟨rfl, rfl⟩
  · have hargs : (s.setVist a isVist).args b = s.args b := update_of_ne hb _ _
    rw [hargs]
    exact ⟨rfl, rfl⟩

namespace PoolInv

theorem free_of_idle (h : PoolInv x s) (hlive : s.Live a) (hidle : (s.args a).isVist = false)
    (f : Nat) : (s.executor f).args ≠ some a := by
  intro hf
  rcases h.held f a hf with rfl | ⟨-, hvist⟩
  · exact not_live_own hlive
  · exact absurd (hidle.symm.trans hvist) Bool.false_ne_true

section

variable (h : PoolInv none s)
include h

theorem take {t : Nat} (ha : a ∈ s.argsMap.list t)
    (hidle : (s.args a).isVist = false) : PoolInv none (s.take e a) := by
  obtain ⟨hlist, hseed, hfixed⟩ := h.mapped t a ha (by simp)
  have hlive := h.listed a hlist
  have hfree := h.free_of_idle hlive hidle
  have hset : PoolInv (some a) (s.setVist a true) :=
    (h.exempt a).setArgs _ (fun _ => hlive.1) fun f hf => absurd hf (hfree f)
  have hgive := hset.give (e := e) { s.executor e with args := some a } rfl hlive
    (by rw [setVist_self]) hfree
  refine PoolInv.get (hgive.arrive ?_ (fun _ => Or.inl hlist) ?_) a
  · intro t' ht'
    obtain ⟨-, hseed', -⟩ := h.mapped t' a ht' (by simp)
    refine ⟨hlist, ?_, (hseed.symm.trans hseed') ▸ hfixed⟩
    show ((s.setVist a true).args a).seed = t'
    rw [setVist_self]
    exact hseed'
  · intro _ _ _
    show a ∈ s.argsMap.list ((s.setVist a true).args a).seed
    rw [setVist_self]
    exact hseed ▸ ha

theorem setKey (hash : List Byte → Nat) (e : Nat) (key : List Byte) :
    PoolInv none (s.setKey hash e key) :=
  (h.setOwn e _).setExecutor _ fun _ ha => Or.inl ha

theorem matchArgs (hash : List Byte → Nat) (e : Nat) (key : List Byte) :
    PoolInv none (s.matchArgs hash e key).1 := by
  unfold ArgsPool.matchArgs
  split
  next => exact h.setExecutor _ fun a ha => Or.inl ha
  next =>
    split
    next a hfind =>
      have hmatch := find?_some hfind
      unfold isArgsMatch at hmatch
      have hidle := (Bool.and_eq_true_iff.mp hmatch).1
      exact (h.setKey hash e key).take (mem_of_find?_eq_some hfind) (Bool.not_eq_eq_eq_not.mp hidle)
    next => exact h.setKey hash e key

/-- The new args is in `argsMap` and not on the list. -/
theorem allocate (e : Nat) :
    PoolInv (some (.heap s.nextArgs)) (s.allocate e) := by
  have hdel := h.fresh s.nextArgs (Nat.le_refl _)
  have hnew : ∀ b, s.Live b → b ≠ .heap s.nextArgs := by
    rintro b ⟨-, n, hn, rfl⟩ heq
    exact absurd (ArgsPtr.heap.inj heq) (Nat.ne_of_lt hn)
  have hmap : ∀ t, .heap s.nextArgs ∉ s.argsMap.list t := fun t ht =>
    hnew _ (h.listed _ (h.mapped t _ ht (by simp)).1) rfl
  have hfree : ∀ f, (s.executor f).args ≠ some (.heap s.nextArgs) := fun f hf => by
    rcases h.held f _ hf with hown | hand
    · cases hown
    · exact hnew _ hand.1 rfl
  -- Between the allocation and the put the new arguments are the one exception of the invariant.
  let s₁ : ArgsPool := { s with
    nextArgs := s.nextArgs + 1
    argsMap := s.argsMap.push (s.args (.own e)).seed (.heap s.nextArgs) }
  have hgrow : ∀ b, s.Live b → s₁.Live b :=
    fun b ⟨hb, n, hn, hbn⟩ => ⟨hb, n, Nat.lt_succ_of_lt hn, hbn⟩
  have hpush : PoolInv (some (.heap s.nextArgs)) s₁ := by
    refine { h with nodup := ?_, listed := ?_, mapped := ?_, placed := ?_, known := ?_,
                    held := ?_, heldMapped := ?_, fresh := ?_ }
    · intro t
      show ((s.argsMap.push _ _).list t).Nodup
      rw [SeedMap.list_push]
      split
      next =>
        rw [← concat_eq_append]
        exact (h.nodup _).concat (hmap _)
      next => exact h.nodup t
    · exact fun b hb => hgrow b (h.listed b hb)
    · intro t b hb hx
      have hb := (SeedMap.mem_push.mp hb).resolve_right fun hand => hx (congrArg some hand.1.symm)
      exact h.mapped t b hb (by simp)
    · rintro b ⟨hb, n, hn, rfl⟩ hx
      have hne : n ≠ s.nextArgs := fun heq => hx (by rw [heq])
      have hn : n < s.nextArgs := Nat.lt_of_le_of_ne (Nat.le_of_lt_succ hn) hne
      exact h.placed _ ⟨hb, n, hn, rfl⟩ (by simp)
    · exact fun t n hn => Nat.lt_succ_of_lt (h.known t n hn)
    · exact fun f b hb => (h.held f b hb).imp_right fun hand => ⟨hgrow b hand.1, hand.2⟩
    · exact fun f b hb _ hlist =>
        SeedMap.mem_push.mpr (Or.inl (h.heldMapped f b hb (by simp) hlist))
    · exact fun n hn => h.fresh n (Nat.le_of_succ_le hn)
  have hset := hpush.setArgs { isVist := true } (fun _ => hdel) fun f hf => absurd hf (hfree f)
  refine hset.give _ rfl ⟨hdel, s.nextArgs, Nat.lt_succ_self _, rfl⟩ ?_ hfree
  show (update s.args _ _ _).isVist = true
  rw [update_self]

theorem createArgs (e : Nat) : PoolInv none (s.createArgs e) := by
  unfold ArgsPool.createArgs
  split
  next =>
    -- A fresh address is in no list, so the put neither finds nor evicts it.
    have hmiss : .heap s.nextArgs ∉ s.cacheList.values := fun hl => by
      obtain ⟨-, n, hn, heq⟩ := h.listed _ hl
      exact absurd (ArgsPtr.heap.inj heq) (Nat.ne_of_gt hn)
    have hdel := h.fresh s.nextArgs (Nat.le_refl _)
    obtain ⟨gone, hspec, hput⟩ :=
      (h.allocate e).put hmiss ⟨hdel, s.nextArgs, Nat.lt_succ_self _, rfl⟩
    obtain ⟨kept, hkept, hvalues⟩ := hspec.values
    have hmem := hkept ▸ mem_cons_self (a := ArgsPtr.heap s.nextArgs) (l := kept)
    have hlive := hput.listed _ hmem
    have hset := hput.setArgs { s.args (.own e) with isVist := true }
      (fun _ => hlive.1) fun _ _ => Or.inr rfl
    have hmap : ∀ t, .heap s.nextArgs ∈ (s.allocate e).argsMap.list t ↔
        t = (s.args (.own e)).seed := by
      intro t
      refine SeedMap.mem_push.trans
        ⟨fun ht => ht.elim (fun ht => ?_) And.right, fun ht => Or.inr ⟨rfl, ht⟩⟩
      exact absurd (h.mapped t _ ht (by simp)).1 hmiss
    have hseed : ((((s.allocate e).put (.heap s.nextArgs)).setArgs (.heap s.nextArgs)
        { s.args (.own e) with isVist := true }).args (.heap s.nextArgs)).seed =
        (s.args (.own e)).seed := by
      rw [setArgs_self]
    refine hset.arrive ?_ (fun _ => Or.inl hmem) ?_
    · intro t ht
      have ht := (hmap t).mp ((hspec.mem_map t _).mp ht).1
      refine ⟨hmem, hseed.trans ht.symm, fun hfixed => ?_⟩
      exact absurd (h.known t _ (hspec.fixed ▸ hfixed)) (Nat.lt_irrefl _)
    · intro _ _ _
      rw [hseed]
      exact (hspec.mem_map _ _).mpr ⟨(hmap _).mpr rfl,
        fun hand => ((hspec.live _).mp hlive).2 hand.1⟩
  next => exact h.setExecutor _ fun a ha => Or.inr (some.inj ha).symm

/-- `FixCache` takes an args off the list that is on it. -/
theorem edit_fixCache (ha : (s.executor e).args = some a) :
    (s.fixCache a).Indexed ∧
      ∀ b, b ∈ (s.fixCache a).cacheList.values ↔ b ∈ s.cacheList.values ∧ b ≠ a := by
  have hwhere : a ∈ s.argsMap.list (s.args a).seed ↔ a ∈ s.cacheList.values :=
    ⟨fun hmem => (h.mapped _ a hmem (by simp)).1, h.heldMapped e a ha (by simp)⟩
  unfold Indexed ArgsPool.fixCache
  show Indexes id (fun b => (s.argsCache.erase a).lookup b) _ ∧ _
  rw [lookup_erase_eq]
  by_cases hmem : a ∈ s.argsMap.list (s.args a).seed
  · obtain ⟨it, hit⟩ := NodeList.mem_values.mp (hwhere.mp hmem)
    have hat : Indexes id (fun b => s.argsCache.lookup b) s.cacheList := h.index
    have hlookup : s.argsCache.lookup a = some it := hat.of_node hit
    simp only [if_pos hmem, hlookup, Option.elim_some]
    refine ⟨Indexes.erase h.index hlookup, fun b => ?_⟩
    rw [Indexes.values_erase h.index hlookup, mem_filter, decide_eq_true_eq]
    rfl
  · have hmiss := fun hl => hmem (hwhere.mpr hl)
    have hlookup : s.argsCache.lookup a = none := h.index.lookup_eq_none hmiss
    simp only [if_neg hmem]
    refine ⟨?_, fun b => ⟨fun hb => ⟨hb, fun hba => hmiss (hba ▸ hb)⟩, And.left⟩⟩
    have hsame : update (fun b => s.argsCache.lookup b) a none = fun b => s.argsCache.lookup b := by
      rw [← hlookup]
      exact Function.update_eq_self a _
    rw [hsame]
    exact h.index

theorem values_fixCache (ha : (s.executor e).args = some a) (b : ArgsPtr) :
    b ∈ (s.fixCache a).cacheList.values ↔ b ∈ s.cacheList.values ∧ b ≠ a :=
  (h.edit_fixCache ha).2 b

theorem fixCache (ha : (s.executor e).args = some a) :
    PoolInv none (s.fixCache a) := by
  obtain ⟨hindex, hvalues⟩ := h.edit_fixCache ha
  have hmap : ∀ t b, b ∈ (s.fixCache a).argsMap.list t ↔
      b ∈ s.argsMap.list t ∧ ¬ (b = a ∧ t = (s.args a).seed) := fun t b =>
    SeedMap.mem_takeOut (h.nodup _)
  have hfix : ∀ t b, b ∈ (s.fixCache a).fixedCacheMap.list t ↔
      b ∈ s.fixedCacheMap.list t ∨ (b = a ∧ t = (s.args a).seed) := fun t b => SeedMap.mem_push
  refine { h with index := hindex, nodup := fun t => SeedMap.nodup_takeOut h.nodup,
                  listed := ?_, mapped := ?_, placed := ?_, known := ?_, heldMapped := ?_ }
  · exact fun b hb => h.listed b ((hvalues b).mp hb).1
  · intro t b hb _
    obtain ⟨hb, hnot⟩ := (hmap t b).mp hb
    obtain ⟨hlist, hseed, hfixed⟩ := h.mapped t b hb (by simp)
    -- what stays in the list is not `a`
    have hba : b ≠ a := fun heq => hnot ⟨heq, heq ▸ hseed.symm⟩
    refine ⟨(hvalues b).mpr ⟨hlist, hba⟩, hseed, fun hf => ?_⟩
    exact ((hfix t b).mp hf).elim hfixed fun hand => hba hand.1
  · intro b hb _
    by_cases hba : b = a
    · exact Or.inr ((hfix _ b).mpr (Or.inr ⟨hba, by rw [hba]; rfl⟩))
    · exact (h.placed b hb (by simp)).imp (fun hlist => (hvalues b).mpr ⟨hlist, hba⟩)
        fun hf => (hfix _ b).mpr (Or.inl hf)
  · intro t n hn
    rcases (hfix t _).mp hn with hn | ⟨rfl, -⟩
    · exact h.known t n hn
    · rcases h.held e _ ha with hown | ⟨⟨-, m, hm, heq⟩, -⟩
      · cases hown
      · exact ArgsPtr.heap.inj heq ▸ hm
  · intro f b hb _ hlist
    obtain ⟨hlist, hba⟩ := (hvalues b).mp hlist
    exact (hmap _ b).mpr ⟨h.heldMapped f b hb (by simp) hlist, fun hand => hba hand.1⟩

end

/-- Only an args in transit goes out of `fixedCacheMap`. -/
theorem setFixed (h : PoolInv (some a) s) {m : SeedMap}
    (hsub : ∀ t b, b ∈ m.list t → b ∈ s.fixedCacheMap.list t)
    (hkeep : ∀ t b, b ≠ a → b ∈ s.fixedCacheMap.list t → b ∈ m.list t) :
    PoolInv (some a) { s with fixedCacheMap := m } := by
  refine { h with mapped := ?_, placed := ?_, known := fun t n hn => h.known t n (hsub t _ hn) }
  · intro t b hb hx
    obtain ⟨hlist, hseed, hfixed⟩ := h.mapped t b hb hx
    exact ⟨hlist, hseed, fun hm => hfixed (hsub t b hm)⟩
  · intro b hb hx
    exact (h.placed b hb hx).imp_right (hkeep _ b fun hba => hx (congrArg some hba.symm))

end PoolInv

theorem list_of_lookup {m : SeedMap} {seed : Nat} {as : List ArgsPtr}
    (h : AList.lookup seed m = some as) : m.list seed = as := by
  unfold SeedMap.list
  rw [h, getD_some]

/-- Args that are not fixed stay where they are. -/
theorem releaseFixedCache_of_not (ha : a ∉ s.fixedCacheMap.list (s.args a).seed) :
    ∃ m : SeedMap, s.releaseFixedCache a = { s with fixedCacheMap := m } ∧
      ∀ t, m.list t = s.fixedCacheMap.list t := by
  unfold releaseFixedCache
  split
  next => exact ⟨s.fixedCacheMap, rfl, fun _ => rfl⟩
  next as has =>
    rw [← list_of_lookup has, if_neg ha]
    refine ⟨_, rfl, fun t => ?_⟩
    rw [SeedMap.list_erase, erase_of_not_mem ha]
    split
    next ht => rw [ht]
    next => rfl

/-- Fixed args are put back into the list. -/
theorem releaseFixedCache_of_mem (ha : a ∈ s.fixedCacheMap.list (s.args a).seed) :
    s.releaseFixedCache a =
      { s.put a with fixedCacheMap := (s.put a).fixedCacheMap.erase (s.args a).seed a } := by
  unfold releaseFixedCache
  split
  next hnone =>
    unfold SeedMap.list at ha
    rw [hnone] at ha
    exact absurd ha not_mem_nil
  next as has => rw [← list_of_lookup has, if_pos ha]

namespace PoolInv

section

variable (h : PoolInv none s) (ha : (s.executor e).args = some a)
  (hown : a = .own e → a ∉ s.fixedCacheMap.list (s.args a).seed)
include h ha hown

/-- Releasing keeps the invariant, and the args are in one index again. -/
theorem releaseFixedCache :
    PoolInv (some a) (s.releaseFixedCache a) ∧ (s.releaseFixedCache a).args = s.args ∧
      (s.releaseFixedCache a).executor = s.executor ∧
      (∀ t, a ∈ (s.releaseFixedCache a).argsMap.list t →
        a ∈ (s.releaseFixedCache a).cacheList.values ∧
        (s.args a).seed = t ∧ a ∉ (s.releaseFixedCache a).fixedCacheMap.list t) ∧
      (s.Live a → a ∈ (s.releaseFixedCache a).cacheList.values) := by
  -- fixed, it goes back into the list; otherwise it stays where it is
  by_cases hfixed : a ∈ s.fixedCacheMap.list (s.args a).seed
  · have hnot : ∀ t, a ∉ s.argsMap.list t := fun t ht => by
      obtain ⟨-, hseed, hf⟩ := h.mapped t a ht (by simp)
      exact hf (hseed ▸ hfixed)
    have hmiss : a ∉ s.cacheList.values := fun hl => hnot _ (h.heldMapped e a ha (by simp) hl)
    have hlive : s.Live a := ((h.held e a ha).resolve_left fun heq => hown heq hfixed).1
    obtain ⟨gone, hspec, hput⟩ := (h.exempt a).put hmiss hlive
    obtain ⟨kept, hkept, -⟩ := hspec.values
    rw [releaseFixedCache_of_mem hfixed]
    refine ⟨hput.setFixed (fun t b hb => ?_) fun t b hba hb => ?_, hspec.args, hspec.executor,
      fun t ht => absurd ((hspec.mem_map t a).mp ht).1 (hnot t), fun _ => ?_⟩
    · rw [SeedMap.list_erase] at hb
      split at hb
      next ht => exact ht ▸ mem_of_mem_erase hb
      next => exact hb
    · rw [SeedMap.list_erase]
      split
      next ht => exact (mem_erase_of_ne hba).mpr (ht ▸ hb)
      next => exact hb
    · exact hkept ▸ mem_cons_self
  · obtain ⟨m, hm, hlist⟩ := releaseFixedCache_of_not hfixed
    rw [hm]
    refine ⟨(h.exempt a).setFixed (fun t b hb => hlist t ▸ hb) fun t b _ hb => hlist t ▸ hb, rfl,
      rfl, fun t ht => ?_, fun hlive => ?_⟩
    · obtain ⟨hl, hseed, hf⟩ := h.mapped t a ht (by simp)
      exact ⟨hl, hseed, fun hmem => hf (hlist t ▸ hmem)⟩
    · exact (h.placed a hlive (by simp)).resolve_right hfixed

/-- What `NnopbaseExecutorClear` leaves. -/
theorem clear :
    PoolInv none ((s.releaseArgs a).setExecutor e {}) := by
  obtain ⟨hrel, hargs, hexec, hmapped, hplaced⟩ := h.releaseFixedCache ha hown
  have hdrop := hrel.setExecutor (e := e) {} fun _ hb => absurd hb (by simp)
  have hnobody : ∀ f, (((ArgsPool.releaseFixedCache s a).setExecutor e {}).executor f).args ≠
      some a := by
    intro f hf
    have hf : (update (ArgsPool.releaseFixedCache s a).executor e {} f).args = some a := hf
    by_cases hfe : f = e
    · rw [hfe, update_self] at hf
      exact absurd hf (by simp)
    · rw [update_of_ne hfe, hexec] at hf
      exact hfe (h.heldOnce f e a hf ha)
  have hseed : ((((ArgsPool.releaseFixedCache s a).setExecutor e {}).setVist a false).args a).seed =
      (s.args a).seed := by
    rw [setVist_self]
    exact congrArg (fun args => (args a).seed) hargs
  refine (hdrop.setArgs _ (fun hv => absurd hv Bool.false_ne_true)
    fun f hf => absurd hf (hnobody f)).arrive ?_ ?_ fun f hf => absurd hf (hnobody f)
  · intro t ht
    obtain ⟨hlist, ht, hfixed⟩ := hmapped t ht
    exact ⟨hlist, hseed.trans ht, hfixed⟩
  · intro hlive
    rcases h.held e a ha with rfl | hand
    · exact absurd hlive not_live_own
    · exact Or.inl (hplaced hand.1)

end

end PoolInv

/-! ## Runs -/

/-- No executor gives back its `ownArgs` after it was made repeatable with them, and none is
made repeatable again. -/
def KeepsOwn (s : ArgsPool) : PoolEvent → Prop
  | .clear e => (s.executor e).args = some (.own e) →
      .own e ∉ s.fixedCacheMap.list (s.args (.own e)).seed
  | .setRepeatable e => ∀ a, (s.executor e).args = some a →
      a ∉ s.fixedCacheMap.list (s.args a).seed
  | _ => True

/-- Every event keeps the invariant. -/
theorem PoolInv.step {hash : List Byte → Nat} {event : PoolEvent} (h : PoolInv none s)
    (hok : s.KeepsOwn event) (hstep : s.step hash event = some s') : PoolInv none s' := by
  cases event with
  | matchArgs e key =>
    obtain ⟨-, hs⟩ := Option.ite_none_right_eq_some.mp hstep
    exact some.inj hs ▸ h.matchArgs hash e key
  | disableCache e =>
    obtain ⟨-, hs⟩ := Option.ite_none_right_eq_some.mp hstep
    exact some.inj hs ▸ h.setExecutor _ fun a ha => Or.inl ha
  | createArgs e =>
    obtain ⟨-, hs⟩ := Option.ite_none_right_eq_some.mp hstep
    exact some.inj hs ▸ h.createArgs e
  | setRepeatable e =>
    obtain ⟨a, ha, rfl⟩ := Option.map_eq_some_iff.mp hstep
    exact h.fixCache ha
  | clear e =>
    obtain ⟨a, ha, rfl⟩ := Option.map_eq_some_iff.mp hstep
    refine h.clear ha fun heq => ?_
    subst heq
    exact hok ha

end ArgsPool

end OpBase.Indv
