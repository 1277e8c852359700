import OpBase.Cache.Ownership

/-!
# Wraps and evicted executions

`GetFromCache` hands out an `OpExecCacheWrap`, a bare pointer to a cached execution,
for the caller to run later. Nothing ties the wrap to the entry: while it waits, the
entry may be pushed out of the cache, and the executor it was parked on may hand it
to the gc thread.

> `no_use_after_eviction`: in a run of serving steps no execution is deleted under an
> outstanding wrap, where entries are handed to a gc thread only after their wraps have
> run and no execution is put into both maps.
>
> `cached_within_limit`: no run caches more than the limit.
-/

namespace OpBase.Cache

open List

open Function (update update_of_ne update_self)
open OpBase.Lib

namespace Manager

variable {U : ExecId → Prop} {m m' : Manager} {e f x : ExecId} {n : Nat} {a : Step}
  {es : List ExecId}

/-- Hits, misses that add their execution, completions, the gc threads, and runs of wraps. -/
def Step.Serves : Step → Prop
  | .hit _ _ | .hitHash _ _ | .add _ _ _ | .complete _ _ | .gc _ | .runWrap _ => True
  | _ => False

/-- No outstanding wrap refers to a deleted execution. -/
def WrapsLive (m : Manager) : Prop := ∀ e ∈ m.wraps, m.deletions e = 0

/-- Nothing is handed to a gc thread that a wrap waits for, and no execution is put into
both maps. -/
def HandsOverUnused (m : Manager) (a : Step) : Prop :=
  m.Tidy a ∧ ∀ n, ∀ e ∈ m.submits a n, e ∉ m.wraps

/-! ## What a serving step changes -/

theorem deleteExec_frame (m : Manager) (n : Nat) (e : ExecId) :
    (m.deleteExec n e).wraps = m.wraps ∧ (m.deleteExec n e).nextExec = m.nextExec ∧
      ∀ x, x ≠ e → (m.deleteExec n e).deletions x = m.deletions x :=
  ⟨rfl, rfl, fun _ hx => update_of_ne hx _ _⟩

theorem linked_frame (m : Manager) (e : ExecId) :
    (m.linked e).1.wraps = m.wraps ∧ (m.linked e).1.nextExec = m.nextExec ∧
      (m.linked e).1.deletions = m.deletions := by
  have hroom : ∀ m' : Manager, (m'.makeRoom e).wraps = m'.wraps ∧
      (m'.makeRoom e).nextExec = m'.nextExec ∧ (m'.makeRoom e).deletions = m'.deletions := by
    intro m'
    unfold Manager.makeRoom
    split
    next => exact ⟨rfl, rfl, rfl⟩
    next => exact ⟨rfl, rfl, rfl⟩
  obtain ⟨hwraps, hnext, hdel⟩ := hroom (m.addByHash e).1
  unfold linked
  rw [addByKey_fst]
  rw [addByHash_fst] at hwraps hnext hdel ⊢
  exact ⟨hwraps, hnext, hdel⟩

theorem addOpExecCache_frame (m : Manager) (e : ExecId) :
    (m.addOpExecCache e).wraps = m.wraps ∧ (m.addOpExecCache e).nextExec = m.nextExec ∧
      ∀ x, x ≠ e → (m.addOpExecCache e).deletions x = m.deletions x := by
  by_cases hvalid : (m.exec e).isOpCacheValid = true
  · by_cases hroom : m.cache.length < m.cacheLimit
    · obtain ⟨hwraps, hnext, hdel⟩ := linked_frame m e
      rw [addOpExecCache_eq hvalid hroom]
      split
      next => exact ⟨hwraps, hnext, fun x _ => congrFun hdel x⟩
      next =>
        obtain ⟨hwraps', hnext', hdel'⟩ := deleteExec_frame (m.linked e).1 0 e
        refine ⟨hwraps'.trans hwraps, hnext'.trans hnext, fun x hx => ?_⟩
        exact (hdel' x hx).trans (congrFun hdel x)
    · unfold Manager.addOpExecCache
      rw [hvalid, Bool.not_true, if_neg Bool.false_ne_true, if_pos (Nat.not_lt.mp hroom)]
      exact deleteExec_frame { m with cacheHasFull := true } 0 e
  · unfold Manager.addOpExecCache
    rw [Bool.not_eq_true] at hvalid
    rw [hvalid, Bool.not_false, if_pos rfl]
    exact deleteExec_frame m 0 e

theorem gcTask_frame (m : Manager) (n : Nat) :
    (m.gcTask n).wraps = m.wraps ∧ (m.gcTask n).nextExec = m.nextExec := by
  unfold Manager.gcTask
  split
  next => exact ⟨rfl, rfl⟩
  next => exact ⟨rfl, rfl⟩

theorem deletions_gcTask (h : ∀ e, (m.gcQueue n).head? = some e → e ≠ x) :
    (m.gcTask n).deletions x = m.deletions x := by
  unfold Manager.gcTask
  cases hq : m.gcQueue n with
  | nil => rfl
  | cons e rest =>
    rw [hq] at h
    exact update_of_ne (Ne.symm (h e rfl)) _ _

/-- What a serving step does to the wraps, and to the deletions of known executions. -/
theorem step_cases (ha : a.Serves) (hs : m.step a = some m') :
    m.nextExec ≤ m'.nextExec ∧
    (∀ e ∈ m'.wraps, e ∉ m.wraps → m.deletions e = 0 ∧
      (e ∈ m.content .cache ∨ e ∈ m.content .cache2) ∧ ∀ n, m.submits a n = []) ∧
    ((∃ n, a = .gc n ∧ m' = m.gcTask n) ∨
      ∀ e, e < m.nextExec → m'.deletions e = m.deletions e) := by
  -- only the collector deletes, and only a hit makes wraps
  cases a with
  | hit key name =>
    rcases hit_some hs with rfl | ⟨x, wraps, hfound, rfl, hwraps⟩
    · exact ⟨Nat.le_refl _, fun e he hne => absurd he hne, Or.inr fun _ _ => rfl⟩
    · refine ⟨Nat.le_refl _, fun e he hne => ?_, Or.inr fun _ _ => rfl⟩
      rcases hwraps with rfl | ⟨hlive, rfl⟩
      · exact absurd he hne
      · rcases mem_cons.mp he with rfl | he
        · exact ⟨hlive, Or.inr (mem_of_findKey hfound), fun _ => rfl⟩
        · exact absurd he hne
  | hitHash hash name =>
    obtain ⟨wraps, rfl, hwraps⟩ := handOut_some hs
    refine ⟨Nat.le_refl _, fun e he hne => ?_, Or.inr fun _ _ => rfl⟩
    rcases hwraps with rfl | ⟨y, hy, hlive, rfl⟩
    · exact absurd he hne
    · rcases mem_cons.mp he with rfl | he
      · exact ⟨hlive, Or.inl ((eraseP_lookup hy).mem_iff.mpr mem_cons_self), fun _ => rfl⟩
      · exact absurd he hne
  | add hash key name =>
    obtain rfl := Option.some.inj hs
    obtain ⟨hwraps, hnext, hdel⟩ :=
      addOpExecCache_frame (m.newExec hash key name) m.nextExec
    refine ⟨?_, fun e he hne => absurd (hwraps ▸ he) hne,
      Or.inr fun e he => hdel e (Nat.ne_of_lt he)⟩
    rw [hnext]
    exact Nat.le_succ _
  | complete f launched =>
    obtain ⟨-, rfl⟩ := guard_some hs
    exact ⟨Nat.le_refl _, fun e he hne => absurd he hne, Or.inr fun _ _ => rfl⟩
  | gc k =>
    obtain rfl := Option.some.inj hs
    obtain ⟨hwraps, hnext⟩ := gcTask_frame m k
    exact ⟨Nat.le_of_eq hnext.symm, fun e he hne => absurd (hwraps ▸ he) hne,
      Or.inl ⟨k, rfl, rfl⟩⟩
  | runWrap f =>
    obtain ⟨-, rfl⟩ := guard_some hs
    exact ⟨Nat.le_refl _, fun e he hne => absurd (mem_of_mem_erase he) hne,
      Or.inr fun _ _ => rfl⟩
  | remove _ | release _ | shrink _ _ | clear => exact ha.elim

/-! ## Where executions come from -/

theorem mem_gcQueue_oldCacheClear {k : Nat} (hx : x ∈ (m.oldCacheClear n f).gcQueue k) :
    x ∈ m.gcQueue k ∨ k = n ∧ x ∈ (m.exec f).shrinkList := by
  have hx' : x ∈ update m.gcQueue n ((m.exec f).shrinkList.foldl submitGcTask (m.gcQueue n)) k := hx
  by_cases hk : k = n
  · subst hk
    obtain ⟨taken, lost, heq, hperm, -⟩ :=
      foldl_submitGcTask (m.exec f).shrinkList (m.gcQueue k)
    rw [update_self, heq] at hx'
    rcases mem_append.mp hx' with hx' | hx'
    · exact Or.inl hx'
    · exact Or.inr ⟨rfl, hperm.mem_iff.mp (mem_append_left _ hx')⟩
  · rw [update_of_ne hk] at hx'
    exact Or.inl hx'

theorem mem_shrinkList_update {exec : ExecId → Exec} {g : ExecId} {v : Exec}
    (hv : v.shrinkList = []) (hx : x ∈ (update exec f v g).shrinkList) :
    x ∈ (exec g).shrinkList := by
  by_cases hg : g = f
  · rw [hg, update_self, hv] at hx
    exact absurd hx not_mem_nil
  · rwa [update_of_ne hg] at hx

/-- What has a place in `m'` had one in `m`, but for the executions `es`. -/
def From (es : List ExecId) (m m' : Manager) : Prop :=
  ∀ p x, x ∈ m'.content p → (∃ q, x ∈ m.content q) ∨ x ∈ es

theorem From.trans {m'' : Manager} (h : From es m m') (h' : From es m' m'') : From es m m'' := by
  intro p x hx
  rcases h' p x hx with ⟨q, hq⟩ | hx
  · exact h q x hq
  · exact Or.inr hx

theorem From.of_content (h : m'.content = m.content) : From es m m' :=
  fun p _ hx => Or.inl ⟨p, h ▸ hx⟩

theorem from_touch {f : ExecId} (hf : f ∈ m.cache2) : From es m (m.touch f) := by
  intro p x hx
  cases p with
  | cache2 => exact Or.inl ⟨.cache2, (perm_cons_erase hf).mem_iff.mpr hx⟩
  | cache => exact Or.inl ⟨.cache, hx⟩
  | shrinkList g => exact Or.inl ⟨.shrinkList g, hx⟩
  | gcQueue k => exact Or.inl ⟨.gcQueue k, hx⟩
  | owned => exact Or.inl ⟨.owned, hx⟩

section

variable (m : Manager)

theorem from_oldCacheClear (n : Nat) (f : ExecId) :
    From es m (m.oldCacheClear n f) := by
  intro p x hx
  cases p with
  | shrinkList g => exact Or.inl ⟨.shrinkList g, mem_shrinkList_update rfl hx⟩
  | gcQueue k =>
    rcases mem_gcQueue_oldCacheClear hx with hx | ⟨-, hx⟩
    · exact Or.inl ⟨.gcQueue k, hx⟩
    · exact Or.inl ⟨.shrinkList f, hx⟩
  | cache => exact Or.inl ⟨.cache, hx⟩
  | cache2 => exact Or.inl ⟨.cache2, hx⟩
  | owned => exact Or.inl ⟨.owned, hx⟩

theorem from_deleteExec (n : Nat) (f : ExecId) : From es m (m.deleteExec n f) :=
  (from_oldCacheClear m n f).trans (From.of_content (by funext p; cases p <;> rfl))

theorem from_addByHash (e : ExecId) : From [e] m (m.addByHash e).1 := by
  unfold Manager.addByHash
  split
  next =>
    intro p x hx
    cases p with
    | cache =>
      rcases mem_cons.mp hx with hx | hx
      · exact Or.inr (mem_singleton.mpr hx)
      · exact Or.inl ⟨.cache, hx⟩
    | cache2 => exact Or.inl ⟨.cache2, hx⟩
    | shrinkList g => exact Or.inl ⟨.shrinkList g, hx⟩
    | gcQueue k => exact Or.inl ⟨.gcQueue k, hx⟩
    | owned => exact Or.inl ⟨.owned, hx⟩
  next => exact From.of_content rfl

theorem from_makeRoom (e : ExecId) : From es m (m.makeRoom e) := by
  unfold Manager.makeRoom
  split
  next =>
    intro p x hx
    cases p with
    | cache2 => exact Or.inl ⟨.cache2, mem_of_mem_take hx⟩
    | shrinkList g =>
      have hx' : x ∈ (update m.exec e { m.exec e with
        shrinkList := m.cache2.drop (m.cache2.length - cacheShrinkNum) ++ (m.exec e).shrinkList }
          g).shrinkList := hx
      by_cases hg : g = e
      · subst hg
        rw [update_self] at hx'
        rcases mem_append.mp hx' with hx' | hx'
        · exact Or.inl ⟨.cache2, mem_of_mem_drop hx'⟩
        · exact Or.inl ⟨.shrinkList g, hx'⟩
      · rw [update_of_ne hg] at hx'
        exact Or.inl ⟨.shrinkList g, hx'⟩
    | cache => exact Or.inl ⟨.cache, hx⟩
    | gcQueue k => exact Or.inl ⟨.gcQueue k, hx⟩
    | owned => exact Or.inl ⟨.owned, hx⟩
  next => exact From.of_content rfl

theorem from_addByKey (e : ExecId) : From [e] m (m.addByKey e).1 := by
  unfold Manager.addByKey
  split
  next => exact From.of_content rfl
  next =>
    split
    next =>
      intro p x hx
      cases p with
      | cache2 =>
        rcases mem_cons.mp hx with hx | hx
        · exact Or.inr (mem_singleton.mpr hx)
        · exact Or.inl ⟨.cache2, hx⟩
      | cache => exact Or.inl ⟨.cache, hx⟩
      | shrinkList g => exact Or.inl ⟨.shrinkList g, hx⟩
      | gcQueue k => exact Or.inl ⟨.gcQueue k, hx⟩
      | owned => exact Or.inl ⟨.owned, hx⟩
    next other hsome => exact from_touch (mem_of_findKey hsome)

theorem from_addOpExecCache (e : ExecId) : From [e] m (m.addOpExecCache e) := by
  have hlinked : From [e] m (m.linked e).1 :=
    (from_addByHash m e).trans ((from_makeRoom _ e).trans (from_addByKey _ e))
  by_cases hvalid : (m.exec e).isOpCacheValid = true
  · by_cases hroom : m.cache.length < m.cacheLimit
    · rw [addOpExecCache_eq hvalid hroom]
      split
      next => exact hlinked
      next => exact hlinked.trans (from_deleteExec _ 0 e)
    · unfold Manager.addOpExecCache
      rw [hvalid, Bool.not_true, if_neg Bool.false_ne_true, if_pos (Nat.not_lt.mp hroom)]
      have hflag : From [e] m { m with cacheHasFull := true } :=
        From.of_content (by funext p; cases p <;> rfl)
      exact hflag.trans (from_deleteExec _ 0 e)
  · unfold Manager.addOpExecCache
    rw [Bool.not_eq_true] at hvalid
    rw [hvalid, Bool.not_false, if_pos rfl]
    exact from_deleteExec m 0 e

theorem from_gcTask (n : Nat) : From es m (m.gcTask n) := by
  unfold Manager.gcTask
  split
  next => exact From.of_content rfl
  next e rest hq =>
    have hpop : From es m { m with gcQueue := update m.gcQueue n rest } := by
      intro p x hx
      cases p with
      | gcQueue k =>
        have hx' : x ∈ update m.gcQueue n rest k := hx
        by_cases hk : k = n
        · subst hk
          rw [update_self] at hx'
          refine Or.inl ⟨.gcQueue k, ?_⟩
          show x ∈ m.gcQueue k
          rw [hq]
          exact mem_cons_of_mem e hx'
        · rw [update_of_ne hk] at hx'
          exact Or.inl ⟨.gcQueue k, hx'⟩
      | cache => exact Or.inl ⟨.cache, hx⟩
      | cache2 => exact Or.inl ⟨.cache2, hx⟩
      | shrinkList g => exact Or.inl ⟨.shrinkList g, hx⟩
      | owned => exact Or.inl ⟨.owned, hx⟩
    exact hpop.trans (from_deleteExec _ _ e)

theorem from_complete (f : ExecId) (launched : Bool) :
    From es m (m.complete f launched) := by
  refine (from_oldCacheClear m 0 f).trans (From.of_content ?_)
  funext p
  cases p with
  | shrinkList g => exact shrinkList_complete m f g launched
  | cache | cache2 | gcQueue _ | owned => rfl

theorem from_newExec (hash : Nat) (key : List Byte) (name : String) :
    From es m (m.newExec hash key name) := by
  intro p x hx
  cases p with
  | shrinkList g => exact Or.inl ⟨.shrinkList g, mem_shrinkList_update rfl hx⟩
  | cache => exact Or.inl ⟨.cache, hx⟩
  | cache2 => exact Or.inl ⟨.cache2, hx⟩
  | gcQueue k => exact Or.inl ⟨.gcQueue k, hx⟩
  | owned => exact Or.inl ⟨.owned, hx⟩

end

/-- Every execution with a place, and every wrap, is of an execution that was added. -/
structure Known (m : Manager) : Prop where
  placed : ∀ p x, x ∈ m.content p → x < m.nextExec
  wraps : ∀ e ∈ m.wraps, e < m.nextExec

theorem known_init (cacheLimit : Nat) : (init cacheLimit).Known := by
  refine ⟨fun p x hx => ?_, fun e he => absurd he not_mem_nil⟩
  cases p <;> exact absurd hx not_mem_nil

theorem Known.step (h : m.Known) (ha : a.Serves) (hs : m.step a = some m') : m'.Known := by
  obtain ⟨hle, hnew, -⟩ := step_cases ha hs
  refine ⟨?_, fun e he => ?_⟩
  · -- Only adding brings a new execution in, and it counts it.
    have hold : From [] m m' → m'.nextExec = m.nextExec →
        ∀ p x, x ∈ m'.content p → x < m'.nextExec := by
      intro hfrom hnext p x hx
      rcases hfrom p x hx with ⟨q, hq⟩ | hx
      · exact hnext ▸ h.placed q x hq
      · exact absurd hx not_mem_nil
    cases a with
    | hit key name =>
      rcases hit_some hs with rfl | ⟨x, wraps, hfound, rfl, -⟩
      · exact h.placed
      · exact hold ((from_touch (mem_of_findKey hfound)).trans
          (From.of_content (by funext p; cases p <;> rfl))) rfl
    | hitHash hash name =>
      obtain ⟨wraps, rfl, -⟩ := handOut_some hs
      exact hold (From.of_content (by funext p; cases p <;> rfl)) rfl
    | add hash key name =>
      obtain rfl := Option.some.inj hs
      intro p x hx
      have hnext := (addOpExecCache_frame (m.newExec hash key name) m.nextExec).2.1
      have hfrom : From [m.nextExec] m _ := (from_newExec m hash key name).trans
        (from_addOpExecCache (m.newExec hash key name) m.nextExec)
      rw [hnext]
      rcases hfrom p x hx with ⟨q, hq⟩ | hx
      · exact Nat.lt_succ_of_lt (h.placed q x hq)
      · exact mem_singleton.mp hx ▸ Nat.lt_succ_self _
    | complete f launched =>
      obtain ⟨-, rfl⟩ := guard_some hs
      exact hold (from_complete m f launched) rfl
    | gc k =>
      obtain rfl := Option.some.inj hs
      exact hold (from_gcTask m k) (gcTask_frame m k).2
    | runWrap f =>
      obtain ⟨-, rfl⟩ := guard_some hs
      exact hold (From.of_content (by funext p; cases p <;> rfl)) rfl
    | remove _ | release _ | shrink _ _ | clear => exact ha.elim
  · -- a new wrap is of an execution that is in a map
    refine Nat.lt_of_lt_of_le ?_ hle
    by_cases hw : e ∈ m.wraps
    · exact h.wraps e hw
    · obtain ⟨-, he | he, -⟩ := hnew e he hw
      · exact h.placed .cache e he
      · exact h.placed .cache2 e he

/-! ## What reaches a gc queue -/

/-- Adding queues only what it turned away. -/
theorem mem_gcQueue_addOpExecCache {k : Nat} (h : Inv U m) (he : m.Live e) (hU : ¬ U e)
    (hnil : (m.exec e).shrinkList = []) (hx : x ∈ (m.addOpExecCache e).gcQueue k) :
    x ∈ m.gcQueue k ∨ k = 0 ∧ x ∈ m.turnedAway (m.exec e).hashKey (m.exec e).key := by
  -- deleting `e` hands its own list to the collector, and that is empty here
  have hdelete : ∀ {m' : Manager}, m'.gcQueue = m.gcQueue → (m'.exec e).shrinkList = [] →
      x ∈ (m'.deleteExec 0 e).gcQueue k → x ∈ m.gcQueue k := by
    intro m' hgc hnil' hx
    rcases mem_gcQueue_oldCacheClear hx with hx | ⟨-, hx⟩
    · exact hgc ▸ hx
    · rw [hnil'] at hx
      exact absurd hx not_mem_nil
  by_cases hvalid : (m.exec e).isOpCacheValid = true
  · by_cases hroom : m.cache.length < m.cacheLimit
    · rw [addOpExecCache_eq hvalid hroom] at hx
      split at hx
      next => exact Or.inl (gcQueue_linked ▸ hx)
      next hout =>
        obtain ⟨hhash, hkey⟩ := not_or.mp fun hor => hout (Bool.or_eq_true_iff.mpr hor)
        rw [turnedAway_eq h he hU hvalid hroom hhash hkey]
        rcases mem_gcQueue_oldCacheClear hx with hx | ⟨hk, hx⟩
        · exact Or.inl (gcQueue_linked ▸ hx)
        · rw [shrinkList_linked hnil] at hx
          exact Or.inr ⟨hk, hx⟩
    · unfold Manager.addOpExecCache at hx
      rw [hvalid, Bool.not_true, if_neg Bool.false_ne_true, if_pos (Nat.not_lt.mp hroom)] at hx
      have hflag := @hdelete { m with cacheHasFull := true } rfl hnil hx
      exact Or.inl hflag
  · unfold Manager.addOpExecCache at hx
    rw [Bool.not_eq_true] at hvalid
    rw [hvalid, Bool.not_false, if_pos rfl] at hx
    exact Or.inl (hdelete rfl hnil hx)

/-- What is on a gc queue after a serving step was there before, or is submitted by it. -/
theorem mem_gcQueue_step (h : Inv U m) (ha : a.Serves) (hs : m.step a = some m')
    (hx : x ∈ m'.gcQueue n) : x ∈ m.gcQueue n ∨ x ∈ m.submits a n := by
  cases a with
  | hit key name =>
    rcases hit_some hs with rfl | ⟨y, wraps, -, rfl, -⟩
    · exact Or.inl hx
    · exact Or.inl hx
  | hitHash hash name =>
    obtain ⟨wraps, rfl, -⟩ := handOut_some hs
    exact Or.inl hx
  | add hash key name =>
    obtain rfl := Option.some.inj hs
    have he : (m.newExec hash key name).Live m.nextExec :=
      ⟨Nat.lt_succ_self _, h.fresh (Nat.le_refl _)⟩
    have hself : (m.newExec hash key name).exec m.nextExec = ⟨hash, key, name, false, []⟩ :=
      update_self ..
    have hU : ¬ U m.nextExec := fun hU => absurd (h.live hU).1 (Nat.lt_irrefl _)
    rcases mem_gcQueue_addOpExecCache (h.newExec hash key name) he hU (by rw [hself]) hx
      with hold | ⟨rfl, hnew⟩
    · exact Or.inl hold
    · rw [hself, turnedAway_newExec h] at hnew
      exact Or.inr hnew
  | complete f launched =>
    obtain ⟨-, rfl⟩ := guard_some hs
    rcases mem_gcQueue_oldCacheClear (f := f) hx with hold | ⟨rfl, hnew⟩
    · exact Or.inl hold
    · exact Or.inr hnew
  | gc k =>
    obtain rfl := Option.some.inj hs
    unfold Manager.gcTask at hx
    cases hq : m.gcQueue k with
    | nil =>
      rw [hq] at hx
      exact Or.inl hx
    | cons f rest =>
      rw [hq] at hx
      rcases mem_gcQueue_oldCacheClear (f := f) hx with hold | ⟨rfl, hnew⟩
      · -- the collector takes its execution out of queue `k`
        have hx' : x ∈ update m.gcQueue k rest n := hold
        by_cases hn : n = k
        · subst hn
          rw [update_self] at hx'
          rw [hq]
          exact Or.inl (mem_cons_of_mem f hx')
        · rw [update_of_ne hn] at hx'
          exact Or.inl hx'
      · have hsubmits : m.submits (.gc k) (k + 1) =
            (m.gcQueue k).head?.elim [] fun e => (m.exec e).shrinkList := if_pos rfl
        rw [hsubmits, hq]
        exact Or.inr hnew
  | runWrap f =>
    obtain ⟨-, rfl⟩ := guard_some hs
    exact Or.inl hx
  | remove _ | release _ | shrink _ _ | clear => exact ha.elim

/-! ## Runs -/

/-- A step deletes no execution under a wrap, if no wrap waits for the head of a queue. -/
theorem WrapsLive.step (hlive : m.WrapsLive) (h : m.Known) (ha : a.Serves)
    (hspares : ∀ n, ∀ e ∈ m.gcQueue n, e ∉ m.wraps) (hs : m.step a = some m') :
    m'.WrapsLive := by
  intro e he
  obtain ⟨-, hnew, hdel⟩ := step_cases ha hs
  -- A wrap handed out now is of an executor found in a cache, so it is not deleted.
  have hold : m.deletions e = 0 ∧ e < m.nextExec := by
    by_cases hw : e ∈ m.wraps
    · exact ⟨hlive e hw, h.wraps e hw⟩
    · obtain ⟨hzero, he | he, -⟩ := hnew e he hw
      · exact ⟨hzero, h.placed _ e he⟩
      · exact ⟨hzero, h.placed _ e he⟩
  rcases hdel with ⟨n, rfl, rfl⟩ | hdel
  · rw [deletions_gcTask fun f hf hfe => ?_]
    · exact hold.1
    · exact hspares n f (mem_of_mem_head? hf) (hfe ▸ (gcTask_frame m n).1 ▸ he)
  · rw [hdel e hold.2]
    exact hold.1

/-- Nothing on a gc queue has a wrap waiting for it. -/
structure Apart (m : Manager) : Prop where
  inv : ∃ U, Inv U m
  live : m.WrapsLive
  queued : ∀ n, ∀ e ∈ m.gcQueue n, e ∉ m.wraps

theorem Apart.step (h : m.Apart) (hknown : m.Known) (ha : a.Serves) (hok : m.HandsOverUnused a)
    (hs : m.step a = some m') : m'.Apart := by
  obtain ⟨U, hU⟩ := h.inv
  obtain ⟨V, hV, -⟩ := hU.step hok.1 hs
  refine ⟨⟨V, hV⟩, h.live.step hknown ha h.queued hs, fun n e he hw => ?_⟩
  have hqueue := mem_gcQueue_step hU ha hs he
  by_cases hold : e ∈ m.wraps
  · rcases hqueue with hqueue | hqueue
    · exact h.queued n e hqueue hold
    · exact hok.2 n e hqueue hold
  · -- A new wrap is for a cached entry, and no cached entry is on a queue.
    obtain ⟨-, hcached, hnone⟩ := (step_cases ha hs).2.1 e hw hold
    rw [hnone n] at hqueue
    have hgc : e ∈ m.content (.gcQueue n) := hqueue.resolve_right not_mem_nil
    rcases hcached with hc | hc
    · exact Place.noConfusion (hU.placed.only hc hgc)
    · exact Place.noConfusion (hU.placed.only hc hgc)

theorem apart_init (cacheLimit : Nat) : (init cacheLimit).Apart where
  inv := ⟨_, inv_init cacheLimit⟩
  live := fun _ he => absurd he not_mem_nil
  queued := fun _ _ he => absurd he not_mem_nil

/-- **No use after eviction**: along a run of serving steps no execution is deleted under an
outstanding wrap, where nothing is handed over that a wrap waits for. -/
theorem no_use_after_eviction (cacheLimit : Nat) {steps : List Step}
    (hserve : ∀ a ∈ steps, a.Serves) (hok : Along step HandsOverUnused (init cacheLimit) steps) :
    Throughout step WrapsLive (init cacheLimit) steps := by
  have hboth := (Along.of_forall steps (init cacheLimit) hserve).and hok
  have hrun := hboth.throughout (I := fun m => m.Known ∧ m.Apart)
    (fun _ _ _ h hok hs => ⟨h.1.step hok.1 hs, h.2.step h.1 hok.1 hok.2 hs⟩) steps
    ⟨known_init cacheLimit, apart_init cacheLimit⟩
  exact hrun.mono fun _ h => h.2.live

/-- The wrap runs before a miss evicts its entry, and the gc thread then deletes the entry. -/
theorem no_use_after_eviction_hit : Throughout step WrapsLive (init 1)
    [.add 0 [1] "aclnnAdd", .complete 0 true, .hit [1] "aclnnAdd", .runWrap 0,
      .add 0 [2] "aclnnAdd", .complete 1 true, .gc 0] := by
  apply no_use_after_eviction 1 (by simp [Step.Serves])
  have hunused : ∀ {m : Manager} {a : Step}, m.Tidy a → m.wraps = [] → m.HandsOverUnused a :=
    fun htidy hw => ⟨htidy, fun n e _ => hw ▸ not_mem_nil⟩
  refine ⟨hunused (fun h => h.1.2.1 rfl) rfl, fun s' hs => ?_⟩
  cases hs
  refine ⟨hunused trivial rfl, fun s' hs => ?_⟩
  cases hs
  refine ⟨hunused trivial rfl, fun s' hs => ?_⟩
  cases hs
  refine ⟨⟨trivial, fun n e he => absurd he not_mem_nil⟩, fun s' hs => ?_⟩
  cases hs
  refine ⟨hunused (fun h => h.1.2.1 rfl) rfl, fun s' hs => ?_⟩
  cases hs
  refine ⟨hunused trivial rfl, fun s' hs => ?_⟩
  cases hs
  exact ⟨hunused trivial rfl, fun _ _ => trivial⟩

/-- A hit on `[1]`, a miss that pushes its entry out, the completion of that miss, and the
gc thread: the wrap of the hit is still outstanding, and its execution is deleted. -/
theorem used_after_eviction : ∃ m, run step (init 1)
    [.add 0 [1] "aclnnAdd", .complete 0 true, .hit [1] "aclnnAdd", .add 0 [2] "aclnnAdd",
      .complete 1 true, .gc 0] = some m ∧ 0 ∈ m.wraps ∧ m.deletions 0 = 1 :=
  ⟨_, rfl, mem_cons_self, rfl⟩

/-! ## How much is cached -/

variable {limit : Nat}

/-- Neither map has more entries than the limit, and `cache_` has no hash twice. -/
structure Capped (limit : Nat) (m : Manager) : Prop where
  cacheLimit : m.cacheLimit = limit
  cache : m.cache.length ≤ limit
  cache2 : m.cache2.length ≤ limit
  nodup : (m.cache.map Prod.fst).Nodup

theorem Capped.of_le (h : m.Capped limit) (hlimit : m'.cacheLimit = m.cacheLimit)
    (hcache : m'.cache <+ m.cache) (hcache2 : m'.cache2.length ≤ m.cache2.length) :
    m'.Capped limit where
  cacheLimit := hlimit.trans h.cacheLimit
  cache := hcache.length_le.trans h.cache
  cache2 := hcache2.trans h.cache2
  nodup := h.nodup.sublist (hcache.map _)

theorem Capped.touch (h : m.Capped limit) (he : e ∈ m.cache2) : (m.touch e).Capped limit := by
  refine h.of_le rfl (Sublist.refl _) ?_
  show (m.cache2.erase e).length + 1 ≤ _
  rw [length_erase_of_mem he]
  exact (Nat.sub_add_cancel (length_pos_of_mem he)).le

theorem Capped.addByHash (h : m.Capped limit) (hroom : m.cache.length < limit) (e : ExecId) :
    (m.addByHash e).1.Capped limit := by
  unfold Manager.addByHash
  split
  next hnew =>
    refine { h with cache := hroom, nodup := nodup_cons.mpr ⟨fun hmem => ?_, h.nodup⟩ }
    obtain ⟨entry, hentry, hhash⟩ := mem_map.mp hmem
    exact bne_iff_ne.mp (lookup_eq_none_iff.mp hnew.2 entry hentry) hhash.symm
  next => exact h

theorem deleteAll_cacheLimit : ∀ (es : List ExecId) (m : Manager),
    (m.deleteAll es).cacheLimit = m.cacheLimit
  | [], _ => rfl
  | e :: es, m => deleteAll_cacheLimit es (m.deleteExec 0 e)

/-- There is room in `cache2_` when the execution is looked up there. -/
theorem Capped.makeRoom (h : m.Capped limit) (hpos : 0 < limit) (e : ExecId) :
    (m.makeRoom e).Capped limit ∧ (m.makeRoom e).cache2.length < limit := by
  unfold Manager.makeRoom
  rw [h.cacheLimit]
  have hle := h.cache2
  split
  next =>
    have hlen : (m.shrinkCache cacheShrinkNum e).cache2.length = m.cache2.length - 30 :=
      (length_take ..).trans (Nat.min_eq_left (Nat.sub_le ..))
    exact ⟨h.of_le rfl (Sublist.refl _) (by omega), by omega⟩
  next hlt => exact ⟨h, Nat.not_le.mp hlt⟩

theorem Capped.addByKey (h : m.Capped limit) (hroom : m.cache2.length < limit) (e : ExecId) :
    (m.addByKey e).1.Capped limit := by
  unfold Manager.addByKey
  split
  next => exact h
  next =>
    split
    next => exact { h with cache2 := hroom }
    next hfound => exact h.touch (mem_of_findKey hfound)

theorem Capped.addOpExecCache (h : m.Capped limit) (e : ExecId) :
    (m.addOpExecCache e).Capped limit := by
  have hdelete : ∀ {m' : Manager}, m'.Capped limit → (m'.deleteExec 0 e).Capped limit :=
    fun h' => h'.of_le rfl (Sublist.refl _) le_rfl
  by_cases hvalid : (m.exec e).isOpCacheValid = true
  · by_cases hroom : m.cache.length < m.cacheLimit
    · rw [addOpExecCache_eq hvalid hroom]
      rw [h.cacheLimit] at hroom
      obtain ⟨hmade, hlt⟩ := (h.addByHash hroom e).makeRoom (Nat.zero_lt_of_lt hroom) e
      have hlinked := hmade.addByKey hlt e
      split
      next => exact hlinked
      next => exact hdelete hlinked
    · unfold Manager.addOpExecCache
      rw [hvalid, Bool.not_true, if_neg Bool.false_ne_true, if_pos (Nat.not_lt.mp hroom)]
      exact h.of_le rfl (Sublist.refl _) le_rfl
  · unfold Manager.addOpExecCache
    rw [Bool.not_eq_true] at hvalid
    rw [hvalid, Bool.not_false, if_pos rfl]
    exact hdelete h

/-- No step makes a cache larger than the limit. -/
theorem Capped.step (h : m.Capped limit) (hs : m.step a = some m') : m'.Capped limit := by
  -- only adding makes a map longer, and it evicts first
  cases a with
  | hit key name =>
    rcases hit_some hs with rfl | ⟨e, wraps, hfound, rfl, -⟩
    · exact h
    · exact (h.touch (mem_of_findKey hfound)).of_le rfl (Sublist.refl _) le_rfl
  | hitHash hash name =>
    obtain ⟨wraps, rfl, -⟩ := handOut_some hs
    exact h.of_le rfl (Sublist.refl _) le_rfl
  | add hash key name =>
    obtain rfl := Option.some.inj hs
    have hnew : (m.newExec hash key name).Capped limit := h.of_le rfl (Sublist.refl _) le_rfl
    exact hnew.addOpExecCache _
  | complete e launched =>
    obtain ⟨-, rfl⟩ := guard_some hs
    exact h.of_le rfl (Sublist.refl _) le_rfl
  | gc n =>
    obtain rfl := Option.some.inj hs
    unfold Manager.gcTask
    split
    next => exact h
    next => exact h.of_le rfl (Sublist.refl _) le_rfl
  | runWrap e =>
    obtain ⟨-, rfl⟩ := guard_some hs
    exact h.of_le rfl (Sublist.refl _) le_rfl
  | remove e =>
    obtain ⟨-, rfl⟩ := guard_some hs
    unfold Manager.removeOpExecCache
    split
    next => exact h.of_le rfl (eraseP_sublist ..) le_rfl
    next =>
      split
      next => exact h.of_le rfl (Sublist.refl _) le_rfl
      next => exact h.of_le rfl (Sublist.refl _) (length_erase_le ..)
  | release e =>
    obtain ⟨-, rfl⟩ := guard_some hs
    exact h.of_le rfl (Sublist.refl _) le_rfl
  | shrink num e =>
    obtain ⟨-, rfl⟩ := guard_some hs
    exact h.of_le rfl (Sublist.refl _) (length_take_le' ..)
  | clear =>
    obtain rfl := Option.some.inj hs
    rw [clearCacheManually_eq, deleteAll_maps]
    exact h.of_le (deleteAll_cacheLimit ..) (nil_sublist _) (Nat.zero_le _)

/-- **The op cache stays within its limit**, whatever is called in whatever order: each of its
maps, and no two executions in `cache_` have one hash. -/
theorem cached_within_limit (cacheLimit : Nat) (steps : List Step)
    (hrun : run step (init cacheLimit) steps = some m) :
    m.cache.length ≤ cacheLimit ∧ m.cache2.length ≤ cacheLimit ∧ (m.cache.map Prod.fst).Nodup := by
  have hinit : (init cacheLimit).Capped cacheLimit :=
    ⟨rfl, Nat.zero_le _, Nat.zero_le _, nodup_nil⟩
  have h := run_invariant (fun _ _ _ h hs => h.step hs) steps hinit hrun
  exact ⟨h.cache, h.cache2, h.nodup⟩

theorem cached_within_limit_full : ∃ m, run step (init 1)
    [.add 7 [] "aclnnAdd", .add 8 [1] "aclnnAdd", .add 0 [1] "aclnnAdd"] = some m ∧
      m.cache.length ≤ 1 ∧ m.cache2.length ≤ 1 ∧ (m.cache.map Prod.fst).Nodup :=
  ⟨_, rfl, cached_within_limit 1
    [.add 7 [] "aclnnAdd", .add 8 [1] "aclnnAdd", .add 0 [1] "aclnnAdd"] rfl⟩

end Manager

end OpBase.Cache
